import PgCutover.Lib.Loops
import PgCutover.Lib.Runs
import PgCutover.Wal.BytePos

/-!
# Insertion into the write-ahead log

A backend reserves the space for a record in usable bytes, under a spinlock, and then copies the
record to the pages, skipping their headers.
-/

namespace PgCutover.Wal

open Lib Function List

/-- The size of the header of a record, which is all of a switch record. -/
def sizeOfXLogRecord : ℕ := 24

/-- The positions up to which space is reserved, and where the last record begins. -/
structure XLogCtlInsert where
  currBytePos : ℕ
  prevBytePos : ℕ

/-- The space that a backend has got for a record. -/
structure Reservation where
  startPos : ℕ
  endPos : ℕ
  prevPtr : ℕ
  /-- The length of the record. -/
  size : ℕ
  isLogSwitch : Bool

/-- The buffers of the log, by position: the bytes on the pages, and the fields of the headers that
a copy sets. -/
structure WalBuffers where
  bytes : ℕ → UInt8
  xlpRemLen : ℕ → ℕ
  firstIsContrecord : ℕ → Bool

/-- Where `CopyXLogRecordToWAL` is. -/
structure CopyState where
  currPos : ℕ
  freespace : ℕ
  written : ℕ
  buffers : WalBuffers

namespace WalLayout

variable (L : WalLayout)

/-- `ReserveXLogInsertLocation`. -/
def reserveXLogInsertLocation (insert : XLogCtlInsert) (size : ℕ) : Reservation × XLogCtlInsert :=
  let startbytepos := insert.currBytePos
  let endbytepos := startbytepos + maxAlign size
  (⟨L.xLogBytePosToRecPtr startbytepos, L.xLogBytePosToEndRecPtr endbytepos,
    L.xLogBytePosToRecPtr insert.prevBytePos, size, false⟩, ⟨endbytepos, startbytepos⟩)

/-- The error is the end of the log, where a segment begins already. -/
def reserveXLogSwitch (insert : XLogCtlInsert) : Except ℕ Reservation × XLogCtlInsert :=
  let startbytepos := insert.currBytePos
  let ptr := L.xLogBytePosToEndRecPtr startbytepos
  if L.xLogSegmentOffset ptr = 0 then (.error ptr, insert)
  else
    let endbytepos := startbytepos + maxAlign sizeOfXLogRecord
    let endPos := L.xLogBytePosToEndRecPtr endbytepos
    let segleft := L.walSegmentSize - L.xLogSegmentOffset endPos
    let (endPos, endbytepos) :=
      if segleft ≠ L.walSegmentSize then
        -- consume the rest of the segment
        (endPos + segleft, L.xLogRecPtrToBytePos (endPos + segleft))
      else (endPos, endbytepos)
    (.ok ⟨L.xLogBytePosToRecPtr startbytepos, endPos, L.xLogBytePosToRecPtr insert.prevBytePos,
      sizeOfXLogRecord, true⟩, ⟨endbytepos, startbytepos⟩)

/-! ### Copying a record -/

/-- Write what fits on this page, and continue on the next page. -/
def copyToPageEnd (writeLen : ℕ) (s : List UInt8 × CopyState) : List UInt8 × CopyState :=
  let (rdata, c) := s
  let written := c.written + c.freespace
  let page := c.currPos + c.freespace
  let buffers := {
    bytes := writeBytes c.buffers.bytes c.currPos (rdata.take c.freespace)
    xlpRemLen := update c.buffers.xlpRemLen page (writeLen - written)
    firstIsContrecord := update c.buffers.firstIsContrecord page true }
  -- skip over the page header
  let currPos := page +
    if L.xLogSegmentOffset page = 0 then sizeOfXLogLongPHD else sizeOfXLogShortPHD
  (rdata.drop c.freespace, ⟨currPos, L.insertFreespace currPos, written, buffers⟩)

/-- The loop of `CopyXLogRecordToWAL` over the pages that a piece of data fills. -/
def copyPages (writeLen : ℕ) (rdata : List UInt8) (c : CopyState) :
    Option (Except Empty (List UInt8 × CopyState)) :=
  whileLoop (fun s => s.1.length > s.2.freespace)
    (fun s => some (.ok (L.copyToPageEnd writeLen s))) (rdata.length + 2) (rdata, c)

/-- Copy one piece of the record. -/
def copyChunk (writeLen : ℕ) (c : CopyState) (rdata : List UInt8) : Option CopyState :=
  match L.copyPages writeLen rdata c with
  | some (.ok (rdata, c)) =>
    some ⟨c.currPos + rdata.length, c.freespace - rdata.length, c.written + rdata.length,
      { c.buffers with bytes := writeBytes c.buffers.bytes c.currPos rdata }⟩
  | _ => none

/-- Consume the remaining pages of the segment, and clear their headers. -/
def consumePages (endPos : ℕ) (c : CopyState) : Option (Except Empty CopyState) :=
  whileLoop (fun c => c.currPos < endPos)
    (fun c => some (.ok { c with
      currPos := c.currPos + L.xlogBlcksz
      buffers := { c.buffers with
        xlpRemLen := update c.buffers.xlpRemLen c.currPos 0
        firstIsContrecord := update c.buffers.firstIsContrecord c.currPos false } }))
    (endPos + 1) c

/-- After the record: the rest of the segment for a log switch, otherwise the end is aligned. -/
def finishRecord (isLogSwitch : Bool) (endPos : ℕ) (c : CopyState) : Option CopyState :=
  if isLogSwitch = true ∧ L.xLogSegmentOffset c.currPos ≠ 0 then
    match L.consumePages endPos { c with currPos := c.currPos + c.freespace } with
    | some (.ok c) => some c
    | _ => none
  else some { c with currPos := maxAlign c.currPos }

/-- The result is an error if the copy does not end where the reservation ends. -/
def copyXLogRecordToWAL (writeLen : ℕ) (isLogSwitch : Bool) (rdata : List (List UInt8))
    (startPos endPos : ℕ) (buffers : WalBuffers) : Option (Except String WalBuffers) := do
  let c ← rdata.foldlM (L.copyChunk writeLen) ⟨startPos, L.insertFreespace startPos, 0, buffers⟩
  let c ← L.finishRecord isLogSwitch endPos c
  if c.currPos ≠ endPos then
    some (.error "space reserved for WAL record does not match what was written")
  else some (.ok c.buffers)

/-! ### The copy ends where the reservation ends -/

/-- The copy of a record that starts at a byte position, after some data. -/
structure Copying (start : ℕ) (data : List UInt8) (c : CopyState) : Prop where
  denotes : L.paging.Denotes (start + data.length) c.currPos
  freespace : c.freespace = L.insertFreespace c.currPos
  written : c.written = data.length
  stored : ∀ i, (hi : i < data.length) →
    c.buffers.bytes (L.xLogBytePosToRecPtr (start + i)) = data[i]

variable {L}

section Copy

variable {start : ℕ} {data rdata : List UInt8} {c : CopyState}

/-- Bytes that fit on the page are stored where they belong. -/
theorem Copying.stored_write (h : L.Copying start data c) (hroom : rdata.length ≤ c.freespace)
    (i : ℕ) (hi : i < (data ++ rdata).length) :
    writeBytes c.buffers.bytes c.currPos rdata (L.xLogBytePosToRecPtr (start + i)) =
      (data ++ rdata)[i] := by
  by_cases hold : i < data.length
  · have hlt : L.xLogBytePosToRecPtr (start + i) < c.currPos :=
      (storedAt_recPtr (start + i)).lt_denotes h.denotes (Nat.add_lt_add_left hold start)
    rw [writeBytes_of_lt rdata hlt, h.stored i hold, getElem_append_left]
  · obtain ⟨k, rfl⟩ := Nat.exists_eq_add_of_le (Nat.le_of_not_lt hold)
    have hk : k < rdata.length := by
      rw [length_append] at hi
      omega
    have haddr := h.denotes.storedAt_add (hk.trans_le (hroom.trans_eq h.freespace))
    rw [Nat.add_assoc] at haddr
    rw [(storedAt_recPtr (start + (data.length + k))).unique haddr,
      (holds_writeBytes c.currPos rdata).getElem hk,
      getElem_append_right (Nat.le_add_right _ _)]
    simp only [Nat.add_sub_cancel_left]

theorem skipped_header {page : ℕ} (hpage : L.xlogBlcksz ∣ page) :
    (if L.xLogSegmentOffset page = 0 then sizeOfXLogLongPHD else sizeOfXLogShortPHD) =
      L.paging.hdr (page / L.xlogBlcksz) := by
  obtain ⟨p, rfl⟩ := hpage
  show _ = L.pageHeaderSize _
  rw [pageHeaderSize, Nat.mul_div_right _ L.blcksz_pos, xLogSegmentOffset, ← segPages_mul,
    Nat.mul_comm L.xlogBlcksz, Nat.mul_mod_mul_right]
  refine ite_congr (propext ?_) (fun _ => rfl) fun _ => rfl
  rw [Nat.mul_eq_zero, or_iff_left L.blcksz_pos.ne']

theorem Copying.copyToPageEnd (h : L.Copying start data c) (hmore : c.freespace < rdata.length)
    (writeLen : ℕ) :
    L.Copying start (data ++ rdata.take c.freespace) (L.copyToPageEnd writeLen (rdata, c)).2 ∧
      0 < (L.copyToPageEnd writeLen (rdata, c)).2.freespace := by
  have hlength : (rdata.take c.freespace).length = c.freespace := by
    rw [length_take, Nat.min_eq_left hmore.le]
  obtain ⟨hpage, hstored⟩ := h.denotes.nextPage
  rw [show L.paging.freeAfter c.currPos = c.freespace from h.freespace.symm] at hpage hstored
  rw [show L.paging.pageSize = L.xlogBlcksz from rfl, ← skipped_header hpage] at hstored
  refine ⟨⟨.inl ?_, rfl, ?_, h.stored_write hlength.le⟩, hstored.freeAfter_pos⟩
  · rw [length_append, hlength, ← Nat.add_assoc]
    exact hstored
  · rw [length_append, hlength, ← h.written]
    rfl

/-- All but the last part of a piece has been copied: what is left fits on the page. -/
theorem Copying.copyPages (h : L.Copying start data c) (writeLen : ℕ) (rdata : List UInt8) :
    Ends (fun _ => False)
      (fun s => (∃ done, rdata = done ++ s.1 ∧ L.Copying start (data ++ done) s.2 ∧
        if rdata = [] then s = (rdata, c) else s.1 ≠ []) ∧
          decide (s.1.length > s.2.freespace) = false)
      (L.copyPages writeLen rdata c) := by
  -- a page without space is left at once, and then there is space for data
  apply whileLoop_ends _ _ fun s => s.1.length + if s.2.freespace = 0 then 1 else 0
  · rintro ⟨rest, c'⟩ ⟨done, hdone, hcopying, hrest⟩ hmore
    have hmore : c'.freespace < rest.length := of_decide_eq_true hmore
    dsimp only at hdone hcopying
    obtain ⟨hnext, hfree⟩ := hcopying.copyToPageEnd hmore writeLen
    have hne : rdata ≠ [] := by
      rintro rfl
      rw [(append_eq_nil_iff.1 hdone.symm).2] at hmore
      exact Nat.not_lt_zero _ hmore
    refine ⟨⟨done ++ rest.take c'.freespace, ?_, ?_, ?_⟩, ?_⟩
    · rw [hdone, append_assoc]
      exact congrArg _ (take_append_drop _ _).symm
    · rw [← append_assoc]
      exact hnext
    · rw [if_neg hne]
      intro hnil
      exact absurd (drop_eq_nil_iff.1 hnil) (Nat.not_le.2 hmore)
    · have hdrop : (L.copyToPageEnd writeLen (rest, c')).1.length = rest.length - c'.freespace :=
        length_drop
      rw [if_neg hfree.ne']
      dsimp only
      split_ifs <;> omega
  · refine ⟨[], rfl, by rwa [append_nil], ?_⟩
    split_ifs with hnil
    · rfl
    · exact hnil
  · dsimp only
    split_ifs <;> omega

/-- A piece of the record, which page boundaries may split. -/
theorem Copying.copyChunk (h : L.Copying start data c) (writeLen : ℕ) (rdata : List UInt8) :
    ∃ c', L.copyChunk writeLen c rdata = some c' ∧ L.Copying start (data ++ rdata) c' ∧
      if rdata = [] then c'.currPos = c.currPos
      else L.paging.EndsAt (start + (data ++ rdata).length) c'.currPos := by
  obtain ⟨⟨rest, c'⟩, hloop, ⟨done, hdone, hcopying, hrest⟩, hfits⟩ :=
    (h.copyPages writeLen rdata).exists_ok
  have hroom : rest.length ≤ c'.freespace := Nat.not_lt.1 (of_decide_eq_false hfits)
  have hall : data ++ rdata = data ++ done ++ rest := by rw [hdone, append_assoc]
  have hends (hne : rest ≠ []) :
      L.paging.EndsAt (start + (data ++ rdata).length) (c'.currPos + rest.length) := by
    rw [hall, length_append, ← Nat.add_assoc]
    exact hcopying.denotes.advance (length_pos_iff.2 hne) (hroom.trans_eq hcopying.freespace)
  refine ⟨_, by rw [WalLayout.copyChunk, hloop], ⟨?_, ?_, ?_, ?_⟩, ?_⟩
  · by_cases hnil : rest = []
    · have hdenotes := hcopying.denotes
      rw [hnil, append_nil] at hall
      rw [hall, hnil]
      exact hdenotes
    · exact .inr (hends hnil)
  · show c'.freespace - rest.length = L.paging.freeAfter (c'.currPos + rest.length)
    have hfree : c'.freespace = L.paging.freeAfter c'.currPos := hcopying.freespace
    rw [Paging.freeAfter_add _ (hroom.trans_eq hfree), hfree]
  · rw [hall, length_append, ← hcopying.written]
  · rw [hall]
    exact hcopying.stored_write hroom
  · split_ifs at hrest ⊢ with hnil
    · obtain ⟨rfl, rfl⟩ := Prod.mk.injEq .. ▸ hrest
      rw [hnil]
      rfl
    · exact hends hrest

/-- The whole record, in pieces. -/
theorem Copying.foldlM (writeLen : ℕ) (rdata : List (List UInt8)) (h : L.Copying start data c)
    (hends : data ≠ [] → L.paging.EndsAt (start + data.length) c.currPos) :
    ∃ c', rdata.foldlM (L.copyChunk writeLen) c = some c' ∧
      L.Copying start (data ++ rdata.flatten) c' ∧
      (data ++ rdata.flatten ≠ [] →
        L.paging.EndsAt (start + (data ++ rdata.flatten).length) c'.currPos) := by
  induction rdata generalizing data c with
  | nil =>
    rw [flatten_nil, append_nil]
    exact ⟨c, rfl, h, hends⟩
  | cons piece _ ih =>
    obtain ⟨_, hchunk, hcopying, hpiece⟩ := h.copyChunk writeLen piece
    rw [foldlM_cons, hchunk, flatten_cons, ← append_assoc]
    refine ih hcopying fun hne => ?_
    split_ifs at hpiece with hnil
    · rw [hnil, append_nil] at hne ⊢
      rw [hpiece]
      exact hends hne
    · exact hpiece

end Copy

/-! ### Reservations -/

theorem dvd_pageHeaderSize (p : ℕ) : 8 ∣ L.paging.hdr p := by
  show 8 ∣ L.pageHeaderSize p
  rw [pageHeaderSize]
  split_ifs
  · exact ⟨5, rfl⟩
  · exact ⟨3, rfl⟩

theorem dvd_maxAlign (len : ℕ) : 8 ∣ maxAlign len := Nat.dvd_mul_left 8 _

theorem maxAlign_of_dvd {len : ℕ} (h : 8 ∣ len) : maxAlign len = len := by
  rw [maxAlign]
  omega

/-- The end of a record is rounded up as its length is. -/
theorem endsAt_maxAlign {start len ptr : ℕ} (haligned : 8 ∣ start)
    (h : L.paging.EndsAt (start + len) ptr) :
    L.paging.EndsAt (start + maxAlign len) (maxAlign ptr) := by
  have hmod := h.mod_eq L.maxAlign_dvd dvd_pageHeaderSize
  have hend := h.align L.maxAlign_dvd dvd_pageHeaderSize
    (show maxAlign len - len < 8 by rw [maxAlign]; omega) (by rw [maxAlign]; omega)
  convert hend using 1 <;> rw [maxAlign] <;> try rw [maxAlign]
  · omega
  · omega

end WalLayout

/-- The copy of the record, in any pieces, ends where the reservation ends, and each of its bytes
is where its byte position says. -/
def Reservation.Copied (L : WalLayout) (r : Reservation) : Prop :=
  ∀ (rdata : List (List UInt8)) (buffers : WalBuffers), rdata.flatten.length = r.size →
    ∃ buffers', L.copyXLogRecordToWAL r.size r.isLogSwitch rdata r.startPos r.endPos buffers =
        some (.ok buffers') ∧
      ∀ i, (hi : i < rdata.flatten.length) →
        buffers'.bytes (L.xLogBytePosToRecPtr (L.xLogRecPtrToBytePos r.startPos + i)) =
          rdata.flatten[i]

namespace WalLayout

variable (L : WalLayout)

/-- A reservation of the byte positions from `start` up to `stop`. -/
structure Reserves (start stop : ℕ) (r : Reservation) : Prop where
  startPos : r.startPos = L.xLogBytePosToRecPtr start
  endPos : L.paging.EndsAt stop r.endPos
  lt : start < stop
  aligned : 8 ∣ stop
  copied : r.Copied L

variable {L}

theorem Copying.init (start : ℕ) (buffers : WalBuffers) :
    L.Copying start [] ⟨L.xLogBytePosToRecPtr start,
      L.insertFreespace (L.xLogBytePosToRecPtr start), 0, buffers⟩ :=
  ⟨.inl (storedAt_recPtr start), rfl, rfl, fun i hi => absurd hi (Nat.not_lt_zero i)⟩

/-- All pieces of a record, from the start of its reservation. -/
theorem exists_copying (start writeLen : ℕ) {rdata : List (List UInt8)} (buffers : WalBuffers)
    (hpos : 0 < rdata.flatten.length) :
    ∃ c, rdata.foldlM (L.copyChunk writeLen) ⟨L.xLogBytePosToRecPtr start,
        L.insertFreespace (L.xLogBytePosToRecPtr start), 0, buffers⟩ = some c ∧
      L.Copying start rdata.flatten c ∧
      L.paging.EndsAt (start + rdata.flatten.length) c.currPos := by
  obtain ⟨c, hfold, hcopying, hends⟩ :=
    (Copying.init start buffers).foldlM writeLen rdata fun h => absurd rfl h
  exact ⟨c, hfold, hcopying, hends (length_pos_iff.1 hpos)⟩

theorem reserves_insert {insert : XLogCtlInsert} (haligned : 8 ∣ insert.currBytePos) {size : ℕ}
    (hsize : 0 < size) :
    L.Reserves insert.currBytePos (L.reserveXLogInsertLocation insert size).2.currBytePos
      (L.reserveXLogInsertLocation insert size).1 where
  startPos := rfl
  endPos := endsAt_endRecPtr _
  lt := by
    show _ < _ + maxAlign size
    rw [maxAlign]
    omega
  aligned := Nat.dvd_add haligned (dvd_maxAlign size)
  copied rdata buffers hlength := by
    obtain ⟨c, hfold, hcopying, hends⟩ :=
      exists_copying insert.currBytePos size buffers (hlength.trans_gt hsize)
    replace hlength : rdata.flatten.length = size := hlength
    rw [hlength] at hends
    have hend := (endsAt_maxAlign haligned hends).unique (endsAt_endRecPtr (L := L) _)
    refine ⟨c.buffers, ?_, ?_⟩
    · show L.copyXLogRecordToWAL size false rdata (L.xLogBytePosToRecPtr insert.currBytePos)
        (L.xLogBytePosToEndRecPtr (insert.currBytePos + maxAlign size)) buffers = _
      rw [copyXLogRecordToWAL, hfold]
      show (if maxAlign c.currPos ≠ _ then _ else _) = _
      rw [if_neg (not_not.2 hend)]
    · show ∀ i, (hi : i < _) → c.buffers.bytes (L.xLogBytePosToRecPtr
        (L.xLogRecPtrToBytePos (L.xLogBytePosToRecPtr insert.currBytePos) + i)) = _
      rw [xLogRecPtrToBytePos_recPtr]
      exact hcopying.stored

theorem exists_consumePages {endPos : ℕ} {c : CopyState} (hle : c.currPos ≤ endPos)
    (hpage : L.xlogBlcksz ∣ c.currPos) (hend : L.xlogBlcksz ∣ endPos) :
    ∃ c', L.consumePages endPos c = some (.ok c') ∧ c'.currPos = endPos ∧
      c'.buffers.bytes = c.buffers.bytes := by
  have hends : Ends (fun _ => False) (fun c' => (L.xlogBlcksz ∣ c'.currPos ∧
      c'.currPos ≤ endPos ∧ c'.buffers.bytes = c.buffers.bytes) ∧
        decide (c'.currPos < endPos) = false) (L.consumePages endPos c) := by
    apply whileLoop_ends _ _ fun c' => endPos - c'.currPos
    · rintro c' ⟨hpage', -, hbytes⟩ hlt
      have hlt : c'.currPos < endPos := of_decide_eq_true hlt
      have hgap := Nat.le_of_dvd (Nat.sub_pos_of_lt hlt) (Nat.dvd_sub hend hpage')
      have hpos := L.blcksz_pos
      refine ⟨⟨Nat.dvd_add hpage' (Nat.dvd_refl _), ?_, hbytes⟩, ?_⟩
      · show c'.currPos + L.xlogBlcksz ≤ endPos
        omega
      · show endPos - (c'.currPos + L.xlogBlcksz) < endPos - c'.currPos
        omega
    · exact ⟨hpage, hle, rfl⟩
    · omega
  obtain ⟨c', hloop, ⟨-, hle', hbytes⟩, hdone⟩ := hends.exists_ok
  exact ⟨c', hloop, Nat.le_antisymm hle' (Nat.not_lt.1 (of_decide_eq_false hdone)), hbytes⟩

theorem blcksz_dvd_of_segment {ptr : ℕ} (h : L.xLogSegmentOffset ptr = 0) : L.xlogBlcksz ∣ ptr :=
  Nat.dvd_trans L.blcksz_dvd (Nat.dvd_of_mod_eq_zero h)

/-- The end of a log switch, and the position that its reservation goes up to. -/
theorem endsAt_switch {start : ℕ} {endPos : ℕ} (hoffset : L.xLogSegmentOffset endPos = 0)
    (hle : L.xLogBytePosToEndRecPtr (start + maxAlign sizeOfXLogRecord) ≤ endPos) :
    L.paging.EndsAt (L.xLogRecPtrToBytePos endPos) endPos ∧
      start < L.xLogRecPtrToBytePos endPos ∧ 8 ∣ L.xLogRecPtrToBytePos endPos := by
  obtain ⟨p, hp⟩ := blcksz_dvd_of_segment hoffset
  rw [Nat.mul_comm] at hp
  have hends : L.paging.EndsAt (L.paging.before p) endPos := hp ▸ Paging.endsAt_before p
  rw [xLogRecPtrToBytePos_eq (placedOnPage_of_denotes (.inr hends)), hends.position_eq]
  refine ⟨hends, ?_, Paging.dvd_before L.maxAlign_dvd dvd_pageHeaderSize p⟩
  by_contra hstart
  -- the record would end before it begins
  have hrecord := (storedAt_recPtr (L := L) start).lt_endsAt
    (endsAt_endRecPtr (start + maxAlign sizeOfXLogRecord)) (Nat.lt_add_of_pos_right (by decide))
  have hbegin : endPos ≤ L.xLogBytePosToRecPtr start := by
    rcases Nat.lt_or_eq_of_le (Nat.le_of_not_lt hstart) with hlt | heq
    · exact (hends.le_storedAt (storedAt_recPtr _)).trans
        ((storedAt_recPtr _).lt_of_lt (storedAt_recPtr start) hlt).le
    · rw [heq] at hends
      exact hends.le_storedAt (storedAt_recPtr start)
  omega

/-- The end of a segment after a position. -/
theorem segmentOffset_add_segleft (ptr : ℕ) :
    L.xLogSegmentOffset (ptr + (L.walSegmentSize - L.xLogSegmentOffset ptr)) = 0 := by
  have hlt := Nat.mod_lt ptr L.segmentSize_pos
  have hsplit := Nat.div_add_mod ptr L.walSegmentSize
  rw [xLogSegmentOffset, xLogSegmentOffset, ← Nat.add_sub_assoc hlt.le,
    show ptr + L.walSegmentSize - ptr % L.walSegmentSize =
      L.walSegmentSize * (ptr / L.walSegmentSize + 1) by rw [Nat.mul_succ]; omega,
    Nat.mul_mod_right]

theorem copied_switch {start endPos prevPtr : ℕ} (hoffset : L.xLogSegmentOffset endPos = 0)
    (hle : L.xLogBytePosToEndRecPtr (start + maxAlign sizeOfXLogRecord) ≤ endPos)
    (heq : L.xLogSegmentOffset (L.xLogBytePosToEndRecPtr (start + maxAlign sizeOfXLogRecord)) = 0 →
      L.xLogBytePosToEndRecPtr (start + maxAlign sizeOfXLogRecord) = endPos) :
    Reservation.Copied L
      ⟨L.xLogBytePosToRecPtr start, endPos, prevPtr, sizeOfXLogRecord, true⟩ := by
  intro rdata buffers hlength
  replace hlength : rdata.flatten.length = sizeOfXLogRecord := hlength
  obtain ⟨c, hfold, hcopying, hends⟩ :=
    exists_copying start sizeOfXLogRecord buffers (hlength.trans_gt (by decide))
  rw [hlength] at hends
  have hcurr : c.currPos = L.xLogBytePosToEndRecPtr (start + maxAlign sizeOfXLogRecord) :=
    hends.unique (endsAt_endRecPtr _)
  rw [← hcurr] at hle heq
  obtain ⟨c', hfinish, hend, hbytes⟩ : ∃ c', L.finishRecord true endPos c = some c' ∧
      c'.currPos = endPos ∧ c'.buffers.bytes = c.buffers.bytes := by
    rw [finishRecord]
    by_cases hzero : L.xLogSegmentOffset c.currPos = 0
    · rw [if_neg fun h => h.2 hzero,
        maxAlign_of_dvd (Nat.dvd_trans L.maxAlign_dvd (blcksz_dvd_of_segment hzero))]
      exact ⟨_, rfl, heq hzero, rfl⟩
    · have hfree : c.freespace = L.paging.freeAfter c.currPos := hcopying.freespace
      have hdvd := blcksz_dvd_of_segment hoffset
      obtain ⟨c', hloop, hend, hbytes⟩ : ∃ c', L.consumePages endPos
          { c with currPos := c.currPos + c.freespace } = some (.ok c') ∧ c'.currPos = endPos ∧
            c'.buffers.bytes = c.buffers.bytes := by
        refine exists_consumePages ?_ ?_ hdvd <;> rw [hfree]
        · exact Paging.add_freeAfter_le hle hdvd
        · exact hcopying.denotes.nextPage.1
      rw [if_pos ⟨rfl, hzero⟩, hloop]
      exact ⟨c', rfl, hend, hbytes⟩
  refine ⟨c'.buffers, ?_, ?_⟩
  · show L.copyXLogRecordToWAL sizeOfXLogRecord true rdata (L.xLogBytePosToRecPtr start) endPos
      buffers = _
    rw [copyXLogRecordToWAL, hfold]
    show (L.finishRecord true endPos c).bind _ = _
    rw [hfinish]
    exact if_neg fun h => h hend
  · show ∀ i, (hi : i < _) → c'.buffers.bytes (L.xLogBytePosToRecPtr
      (L.xLogRecPtrToBytePos (L.xLogBytePosToRecPtr start) + i)) = _
    rw [xLogRecPtrToBytePos_recPtr, hbytes]
    exact hcopying.stored

/-- A log switch reserves up to the end of a segment, or there is nothing to do. -/
theorem reserves_switch (insert : XLogCtlInsert) :
    L.reserveXLogSwitch insert =
        (.error (L.xLogBytePosToEndRecPtr insert.currBytePos), insert) ∨
      ∃ stop r, L.reserveXLogSwitch insert = (.ok r, ⟨stop, insert.currBytePos⟩) ∧
        r.prevPtr = L.xLogBytePosToRecPtr insert.prevBytePos ∧
        L.Reserves insert.currBytePos stop r := by
  rw [reserveXLogSwitch]
  dsimp only
  generalize hendPos : L.xLogBytePosToEndRecPtr
    (insert.currBytePos + maxAlign sizeOfXLogRecord) = endPos
  split_ifs with hstart hleft
  · exact .inl rfl
  · -- the record is followed by unused space up to the end of the segment
    have hsegment := segmentOffset_add_segleft (L := L) endPos
    have hle : L.xLogBytePosToEndRecPtr (insert.currBytePos + maxAlign sizeOfXLogRecord) ≤
        endPos + (L.walSegmentSize - L.xLogSegmentOffset endPos) :=
      hendPos.trans_le (Nat.le_add_right _ _)
    obtain ⟨hend, hlt, hdvd⟩ := endsAt_switch hsegment hle
    refine .inr ⟨_, _, rfl, rfl, rfl, hend, hlt, hdvd, copied_switch hsegment hle fun hzero => ?_⟩
    rw [hendPos] at hzero
    rw [hzero] at hleft
    exact absurd rfl hleft
  · -- the record ends with the segment
    have hsegment : L.xLogSegmentOffset endPos = 0 := by
      have hlt := Nat.mod_lt endPos L.segmentSize_pos
      rw [xLogSegmentOffset] at hleft
      rw [xLogSegmentOffset]
      omega
    obtain ⟨hend, hlt, hdvd⟩ := endsAt_switch hsegment hendPos.le
    rw [← hendPos, xLogRecPtrToBytePos_endRecPtr] at hend hlt hdvd
    rw [hendPos] at hend
    exact .inr ⟨_, _, rfl, rfl, rfl, hend, hlt, hdvd,
      copied_switch hsegment hendPos.le fun _ => hendPos⟩

end WalLayout

/-! ### Runs -/

/-- What a backend asks for: space for a record of some length, or a log switch. -/
inductive Request where
  | insert (size : ℕ)
  | switch

/-- A record is not empty. -/
def Request.Nonempty : Request → Prop
  | .insert size => 0 < size
  | .switch => True

/-- The insertion position and the reservations so far, in order. -/
structure WalInsert where
  insert : XLogCtlInsert
  reserved : List Reservation

namespace WalInsert

/-- One request for space. -/
def step (L : WalLayout) (s : WalInsert) : Request → WalInsert
  | .insert size =>
    let reserved := L.reserveXLogInsertLocation s.insert size
    ⟨reserved.2, s.reserved ++ [reserved.1]⟩
  | .switch =>
    let reserved := L.reserveXLogSwitch s.insert
    ⟨reserved.2, match reserved.1 with
      | .error _ => s.reserved
      | .ok r => s.reserved ++ [r]⟩

variable (L : WalLayout)

/-- The reservations since a start with a previous record at a byte position. -/
structure Valid (prev : ℕ) (s : WalInsert) : Prop where
  aligned : 8 ∣ s.insert.currBytePos
  nonempty : ∀ r ∈ s.reserved, r.startPos < r.endPos
  ordered : s.reserved.Pairwise fun r r' => r.endPos ≤ r'.startPos
  below : ∀ r ∈ s.reserved, r.endPos ≤ L.xLogBytePosToRecPtr s.insert.currBytePos
  first : ∀ r ∈ s.reserved.head?, r.prevPtr = L.xLogBytePosToRecPtr prev
  linked : s.reserved.IsChain fun r r' => r'.prevPtr = r.startPos
  last : L.xLogBytePosToRecPtr s.insert.prevBytePos =
    (s.reserved.getLast?.map Reservation.startPos).getD (L.xLogBytePosToRecPtr prev)
  copied : ∀ r ∈ s.reserved, r.Copied L

variable {L} {prev : ℕ} {s : WalInsert}

theorem Valid.append (h : Valid L prev s) {stop : ℕ} {r : Reservation}
    (hr : L.Reserves s.insert.currBytePos stop r)
    (hprev : r.prevPtr = L.xLogBytePosToRecPtr s.insert.prevBytePos) :
    Valid L prev ⟨⟨stop, s.insert.currBytePos⟩, s.reserved ++ [r]⟩ where
  aligned := hr.aligned
  nonempty r' hr' := by
    rcases mem_append.1 hr' with hold | hnew
    · exact h.nonempty r' hold
    · rw [mem_singleton.1 hnew, hr.startPos]
      exact (WalLayout.storedAt_recPtr _).lt_endsAt hr.endPos hr.lt
  ordered := by
    refine pairwise_append.2 ⟨h.ordered, pairwise_singleton _ _, fun r' hold r'' hnew => ?_⟩
    rw [mem_singleton.1 hnew, hr.startPos]
    exact h.below r' hold
  below r' hr' := by
    rcases mem_append.1 hr' with hold | hnew
    · exact (h.below r' hold).trans
        ((WalLayout.storedAt_recPtr _).lt_of_lt (WalLayout.storedAt_recPtr stop) hr.lt).le
    · rw [mem_singleton.1 hnew]
      exact hr.endPos.le_storedAt (WalLayout.storedAt_recPtr stop)
  first r' hr' := by
    have hlast := h.last
    cases hreserved : s.reserved with
    | nil =>
      rw [hreserved] at hr' hlast
      obtain rfl : r = r' := Option.some.inj hr'
      exact hprev.trans hlast
    | cons =>
      apply h.first
      rw [hreserved] at hr' ⊢
      exact hr'
  linked := by
    refine isChain_append.2 ⟨h.linked, isChain_singleton _, fun r' hlast r'' hnew => ?_⟩
    obtain rfl : r = r'' := Option.some.inj hnew
    have hstart := h.last
    rw [Option.mem_def.1 hlast] at hstart
    exact hprev.trans hstart
  last := by
    rw [List.getLast?_append_of_ne_nil _ (cons_ne_nil r [])]
    exact hr.startPos.symm
  copied r' hr' := by
    rcases mem_append.1 hr' with hold | hnew
    · exact h.copied r' hold
    · rw [mem_singleton.1 hnew]
      exact hr.copied

theorem Valid.step (h : Valid L prev s) {request : Request} (hrequest : request.Nonempty) :
    Valid L prev (s.step L request) := by
  cases request with
  | insert => exact h.append (WalLayout.reserves_insert h.aligned hrequest) rfl
  | switch =>
    rcases WalLayout.reserves_switch (L := L) s.insert with hnone | ⟨_, r, hsome, hprev, hr⟩
    · simp only [WalInsert.step, hnone]
      exact h
    · simp only [WalInsert.step, hsome]
      exact h.append hr hprev

theorem valid_start {insert : XLogCtlInsert} (haligned : 8 ∣ insert.currBytePos) :
    Valid L insert.prevBytePos ⟨insert, []⟩ where
  aligned := haligned
  nonempty _ hr := absurd hr not_mem_nil
  ordered := .nil
  below _ hr := absurd hr not_mem_nil
  first r hr := absurd hr (Option.not_mem_none r)
  linked := .nil
  last := rfl
  copied _ hr := absurd hr not_mem_nil

/-- In every run, the reserved ranges are disjoint and in order, each record points back to the one
reserved before it, its copy ends where its reservation ends, whatever the pieces are that its
data comes in, and byte positions are converted to positions of the log and back. -/
theorem reserved_copied (L : WalLayout) {insert : XLogCtlInsert}
    (haligned : 8 ∣ insert.currBytePos) {requests : List Request}
    (hrequests : ∀ request ∈ requests, request.Nonempty) :
    let reserved := (run (step L) ⟨insert, []⟩ requests).reserved
    (∀ r ∈ reserved, r.startPos < r.endPos) ∧
      (reserved.Pairwise fun r r' => r.endPos ≤ r'.startPos) ∧
      (∀ r ∈ reserved.head?, r.prevPtr = L.xLogBytePosToRecPtr insert.prevBytePos) ∧
      (reserved.IsChain fun r r' => r'.prevPtr = r.startPos) ∧
      (∀ r ∈ reserved, r.Copied L) ∧
      ∀ bytepos, L.xLogRecPtrToBytePos (L.xLogBytePosToRecPtr bytepos) = bytepos ∧
        L.xLogRecPtrToBytePos (L.xLogBytePosToEndRecPtr bytepos) = bytepos := by
  have hevery : EveryStep (step L) (fun _ request => Request.Nonempty request) ⟨insert, []⟩
      requests := everyStep_of_forall hrequests
  have hvalid : Valid L insert.prevBytePos (run (step L) ⟨insert, []⟩ requests) :=
    run_invariant (fun _ _ hs hrequest => hs.step hrequest) (valid_start haligned) hevery
  exact ⟨hvalid.nonempty, hvalid.ordered, hvalid.first, hvalid.linked, hvalid.copied,
    fun bytepos => ⟨WalLayout.xLogRecPtrToBytePos_recPtr bytepos,
      WalLayout.xLogRecPtrToBytePos_endRecPtr bytepos⟩⟩

/-- Segments of two pages of 64 bytes. -/
def twoPages : WalLayout where
  xlogBlcksz := 64
  walSegmentSize := 128
  maxAlign_dvd := ⟨8, rfl⟩
  longPHD_lt := by decide
  blcksz_dvd := ⟨2, rfl⟩
  segmentSize_pos := by decide

/-- A record on the second page, one that goes on in the next segment, and a log switch. -/
theorem reserved_copied_twoPages :
    let reserved := (run (step twoPages) ⟨⟨24, 0⟩, []⟩ [.insert 26, .insert 30, .switch]).reserved
    reserved.map (fun r => (r.startPos, r.endPos, r.prevPtr)) =
        [(88, 120, 40), (120, 192, 88), (216, 256, 120)] ∧
      ∀ r ∈ reserved, r.Copied twoPages := by
  refine ⟨by decide, (reserved_copied twoPages ⟨3, rfl⟩ ?_).2.2.2.2.1⟩
  simp [Request.Nonempty]

end WalInsert

end PgCutover.Wal
