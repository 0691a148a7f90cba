import PgCutover.Pglz.Compress

/-!
# Decompression undoes compression

The compressor writes items that describe its input (`pglzCompress_encodes`). The
decompressor reads the same items back and has, after each of them, the input up to where
the item ends (`decompressItem_pending`, `decompressGroup_pending`). The copy of a match by
doubling has the effect of a copy of one byte after another, which repeats the last `off`
bytes (`copyMatch_spec`).

The decompressor may be given a part of the compressed data, for a part of the output. `needed` is
what it may still read for the output that is still wanted, given the number of items for which the
current control byte has bits. No item takes more bytes than it stands for
(`Item.bytes_length_le`), except for a tag of which only a part is wanted, and that one is the
last.
-/

namespace PgCutover.Pglz

open Lib Function List

/-! ### The compressor -/

section Compress

variable {source : ℕ → UInt8} {slen : ℕ}

/-- The output so far describes the input so far. -/
def CompressState.Sound (source : ℕ → UInt8) (slen : ℕ) (st : CompressState) : Prop :=
  st.hist.Sound st.dp ∧ st.dp ≤ slen ∧
    ∃ items, st.out.Encodes items ∧ Covers source slen 0 items st.dp

/-- One round goes forward in the input, or gives up. -/
theorem compressStep_spec {limits : Limits} {st : CompressState} (h : st.Sound source slen)
    (hlt : st.dp < slen) :
    Ends (fun result => result.1 = -1)
      (fun st' => st'.Sound source slen ∧ slen - st'.dp < slen - st.dp)
      (compressStep source slen limits st) := by
  obtain ⟨hhist, hle, _, hout, hcovers⟩ := h
  unfold compressStep
  split_ifs
  · rfl
  · rfl
  · obtain ⟨found, hfound, hmatch⟩ := pglzFindMatch_spec source hhist hle
      limits.goodMatch limits.goodDrop limits.mask
    rw [hfound]
    cases found with
    | none =>
      have hitem : Covers source slen st.dp [.literal (source st.dp)] (st.dp + 1) :=
        ⟨⟨hlt, rfl⟩, rfl⟩
      exact ⟨⟨hhist.pglzHistAdd source slen limits.mask, hlt, _, hout.pglzOutLiteral _,
        hcovers.append hitem⟩, by simp; omega⟩
    | some m =>
      obtain ⟨hlong, hm⟩ := hmatch m rfl
      have hitem : Covers source slen st.dp [.tag m.1 m.2] (st.dp + m.1) := ⟨⟨hlong, hm⟩, rfl⟩
      exact ⟨⟨hhist.addMatched source slen limits.mask m.1, hm.end_le, _, hout.pglzOutTag _ _,
        hcovers.append hitem⟩, by simp; omega⟩

/-- The items in the output, when it is smaller than the limit. -/
theorem CompressState.Sound.finish {st : CompressState} (h : st.Sound source slen)
    (hdp : st.dp = slen) (strategy : PGLZStrategy)
    (hresult : 0 ≤ (st.finish (strategy.limits slen)).1) :
    ∃ groups g, (∀ x ∈ groups, x.length = 8) ∧ g ≠ [] ∧ g.length ≤ 8 ∧
      (st.finish (strategy.limits slen)).1 = (stream (groups ++ [g])).length ∧
      Holds (st.finish (strategy.limits slen)).2 0 (stream (groups ++ [g])) ∧
      Covers source slen 0 (groups.flatten ++ g) slen := by
  obtain ⟨-, -, _, hout, hcovers⟩ := h
  have hmax : ¬ (st.out.writeCtrl.bp : ℤ) ≥ (strategy.limits slen).resultMax := by
    intro hmax
    simp [CompressState.finish, hmax] at hresult
  have hfinish : st.finish (strategy.limits slen) =
      ((st.out.writeCtrl.bp : ℤ), st.out.writeCtrl.dest) := by
    simp [CompressState.finish, hmax]
  rw [hfinish]
  obtain ⟨rfl, -, -, hbp⟩ | ⟨groups, g, hw, hne, rfl⟩ := hout
  · -- nothing was written, but then the input is empty and nothing is below the limit
    have hzero : slen = 0 := hdp.symm.trans hcovers.symm
    refine absurd ?_ hmax
    simp [PGLZStrategy.limits, hzero]
  · obtain ⟨hholds, hlen, hbp⟩ := hw.writeCtrl
    exact ⟨groups, g, hw.full, hne, hw.le, by rw [hlen, hbp], hholds, hdp ▸ hcovers⟩

/-- The compressor ends. When it succeeds, the output is that of items which describe the
input. -/
theorem pglzCompress_encodes (source : ℕ → UInt8) (slen : ℕ) (dest : ℕ → UInt8)
    (entries : ℕ → PGLZHistEntry) (strategy : Option PGLZStrategy) :
    ∃ result, pglzCompress source slen dest entries strategy = some result ∧
      (0 ≤ result.1 → ∃ groups g, (∀ x ∈ groups, x.length = 8) ∧ g ≠ [] ∧ g.length ≤ 8 ∧
        result.1 = (stream (groups ++ [g])).length ∧
        Holds result.2 0 (stream (groups ++ [g])) ∧
        Covers source slen 0 (groups.flatten ++ g) slen) := by
  have hstart : (CompressState.start dest entries).Sound source slen :=
    ⟨History.Sound.init entries 0, Nat.zero_le _, [], Or.inl ⟨rfl, rfl, rfl, rfl⟩, rfl⟩
  have hloop (limits : Limits) : Ends (fun result => result.1 = -1)
      (fun st => st.Sound source slen ∧ decide (st.dp < slen) = false)
      (whileLoop (fun st => st.dp < slen) (compressStep source slen limits) (slen + 1)
        (.start dest entries)) :=
    whileLoop_ends _ _ (fun st => slen - st.dp)
      (fun st h hcond => compressStep_spec h (of_decide_eq_true hcond)) hstart
      (Nat.lt_succ_of_le (Nat.sub_le _ _))
  unfold pglzCompress
  dsimp only
  split_ifs
  · exact ⟨_, rfl, fun h => absurd h (by norm_num)⟩
  · match whileLoop _ _ _ _, hloop ((strategy.getD strategyDefault).limits slen) with
    | some (.error result), hexit =>
      exact ⟨result, rfl, fun h => absurd h (by rw [hexit]; norm_num)⟩
    | some (.ok st), hdone =>
      have hdp : st.dp = slen := le_antisymm hdone.1.2.1 (by simpa using hdone.2)
      exact ⟨_, rfl, hdone.1.finish hdp _⟩

end Compress

/-! ### Matches in the decompressor -/

section Copy

variable {dest : ℕ → UInt8} {dp off len : ℕ}

/-- The point from which bytes are copied stays the same. What lies between it and `dp` is a
number of repetitions of the last `off` bytes. -/
structure CopyState.Repeats (dest : ℕ → UInt8) (dp off len : ℕ) (c : CopyState) : Prop where
  origin : c.dp = dp - off + c.off
  total : c.dp + c.len = dp + len
  dvd : off ∣ c.off
  le : dp ≤ c.dp
  frame : ∀ a < dp, c.dest a = dest a
  period : ∀ k < c.off, c.dest (dp - off + k) = dest (dp - off + k % off)

/-- Copying from the same point once more goes on with the repetitions. -/
theorem CopyState.Repeats.copy {c : CopyState} (h : c.Repeats dest dp off len) {n : ℕ}
    (hn : n ≤ c.off) :
    (∀ a < dp, memcpy c.dest c.dp (c.dp - c.off) n a = dest a) ∧
      ∀ k < c.off + n,
        memcpy c.dest c.dp (c.dp - c.off) n (dp - off + k) = dest (dp - off + k % off) := by
  have horigin := h.origin
  have hle := h.le
  refine ⟨fun a ha => ?_, fun k hk => ?_⟩
  · rw [memcpy, if_neg (by omega), h.frame a ha]
  · obtain ⟨q, hq⟩ := h.dvd
    rw [memcpy]
    split_ifs with hnew
    · -- a whole number of repetitions further back is the same byte
      have hback : c.dp - c.off + (dp - off + k - c.dp) = dp - off + (k - c.off) := by omega
      rw [hback, h.period (k - c.off) (by omega), hq, Nat.sub_mul_mod (by omega)]
    · exact h.period k (by omega)

/-- Copying all repetitions makes twice as many. -/
theorem CopyState.Repeats.double {c : CopyState} (h : c.Repeats dest dp off len)
    (hpos : 0 < c.off) (hlt : c.off < c.len) :
    c.double.Repeats dest dp off len ∧ c.double.len < c.len := by
  obtain ⟨hframe, hperiod⟩ := h.copy le_rfl
  obtain ⟨q, hq⟩ := h.dvd
  have horigin := h.origin
  have htotal := h.total
  refine ⟨⟨?_, ?_, ⟨q + q, ?_⟩, ?_, hframe, hperiod⟩, ?_⟩
  · change c.dp + c.off = dp - off + (c.off + c.off)
    omega
  · change c.dp + c.off + (c.len - c.off) = dp + len
    omega
  · change c.off + c.off = off * (q + q)
    rw [hq, Nat.mul_add]
  · exact h.le.trans (Nat.le_add_right _ _)
  · change c.len - c.off < c.len
    omega

/-- The copy of a match repeats the last `off` bytes. -/
theorem copyMatch_spec (dest : ℕ → UInt8) (hpos : 1 ≤ off) (hle : off ≤ dp) (len : ℕ) :
    ∃ dest', copyMatch dest dp off len = some dest' ∧ (∀ a < dp, dest' a = dest a) ∧
      ∀ j < len, dest' (dp + j) = dest (dp - off + j % off) := by
  have hstart : CopyState.Repeats dest dp off len
      { dest := dest, dp := dp, off := off, len := len } :=
    ⟨by dsimp only; omega, rfl, dvd_rfl, le_rfl, fun _ _ => rfl,
      fun k hk => by rw [Nat.mod_eq_of_lt hk]⟩
  have hloop : Ends (fun _ : Empty => False)
      (fun c => CopyState.Repeats dest dp off len c ∧ decide (c.off < c.len) = false)
      (whileLoop (fun c : CopyState => c.off < c.len) (fun c => some (.ok c.double)) (len + 1)
        { dest := dest, dp := dp, off := off, len := len }) := by
    refine whileLoop_ends _ _ CopyState.len (fun c hc hcond => ?_) hstart (Nat.lt_succ_self len)
    have horigin := hc.origin
    have hle' := hc.le
    exact hc.double (by omega) (of_decide_eq_true hcond)
  obtain ⟨c, hc, hrepeats, hstop⟩ := hloop.exists_ok
  obtain ⟨hframe, hperiod⟩ := hrepeats.copy (by simpa using hstop)
  refine ⟨memcpy c.dest c.dp (c.dp - c.off) c.len, by rw [copyMatch, hc]; rfl, hframe, ?_⟩
  intro j hj
  have horigin := hrepeats.origin
  have htotal := hrepeats.total
  have hk := hperiod (off + j) (by omega)
  rwa [show dp - off + (off + j) = dp + j by omega, Nat.add_mod_left] at hk

end Copy

/-- The two halves of the first byte of a tag. -/
theorem nibbles : ∀ a < 16, ∀ n < 16,
    (UInt8.ofNat (16 * a ||| n) &&& 0x0f).toNat = n ∧
      (UInt8.ofNat (16 * a ||| n) &&& 0xf0).toNat <<< 4 = a <<< 8 := by
  decide

/-- The upper bits of an offset, moved to the upper half of a byte. -/
theorem offset_high {off : ℕ} (hoff : off < 4096) : (off &&& 0xf00) >>> 4 = 16 * (off / 256) := by
  have hbyte : ∀ a < 16, ∀ b < 16, 16 * a + b &&& 0xf0 = 16 * a := by decide
  have := hbyte (off / 256) (by omega) (off / 16 % 16) (by omega)
  rwa [Nat.shiftRight_and_distrib, Nat.shiftRight_eq_div_pow,
    show off / 2 ^ 4 = 16 * (off / 256) + off / 16 % 16 by omega]

/-- The bytes of a tag give back its length and its offset. -/
theorem tagBytes_decode {m : ℕ → UInt8} {sp len off : ℕ} (hoff : off < 4096) (hlen : 3 ≤ len)
    (hmax : len ≤ maxMatch) (h : Holds m sp (tagBytes len off)) :
    (m sp &&& 0x0f).toNat + 3 = min len 18 ∧
      ((m sp &&& 0xf0).toNat <<< 4 ||| (m (sp + 1)).toNat) = off ∧
      (17 < len → 18 + (m (sp + 2)).toNat = len) := by
  have hbyte : off &&& 0xff = off % 256 := Nat.and_two_pow_sub_one_eq_mod off 8
  have hmod : (UInt8.ofNat (off % 256)).toNat = off % 256 := by simp
  have hjoin : (off / 256) <<< 8 ||| off % 256 = off := by
    rw [← Nat.shiftLeft_add_eq_or_of_lt (Nat.mod_lt _ (by decide))]
    omega
  unfold tagBytes at h
  rw [offset_high hoff, hbyte] at h
  split_ifs at h with hlong
  · obtain ⟨h0, h1, h2, -⟩ := h
    obtain ⟨hn, ha⟩ := nibbles (off / 256) (by omega) 15 (by decide)
    have hext : (UInt8.ofNat (len - 18)).toNat = len - 18 := by
      unfold maxMatch at hmax
      rw [UInt8.toNat_ofNat']
      omega
    rw [h0, h1, h2, ha, hmod]
    exact ⟨by omega, hjoin, fun _ => by omega⟩
  · obtain ⟨h0, h1, -⟩ := h
    obtain ⟨hn, ha⟩ := nibbles (off / 256) (by omega) (len - 3) (by omega)
    rw [h0, h1, ha, hmod]
    exact ⟨by omega, hjoin, fun hlt => absurd hlt hlong⟩

/-! ### The decompressor -/

section Decompress

variable {source m : ℕ → UInt8} {slen srcend : ℕ}

/-- The output has the input up to some position. -/
def Restored (source dest : ℕ → UInt8) (dp : ℕ) : Prop := ∀ i < dp, dest i = source i

/-- A match goes back over its own output, one repetition after another. -/
theorem IsMatch.repeats_mod {pos len off : ℕ} (h : IsMatch source pos slen len off) {j : ℕ}
    (hj : j < len) : source (pos + j) = source (pos - off + j % off) := by
  have hpos := h.off_pos
  have hle := h.off_le
  induction j using Nat.strong_induction_on with
  | _ j ih =>
    rw [h.repeats j hj]
    rcases Nat.lt_or_ge j off with hlt | hge
    · rw [Nat.mod_eq_of_lt hlt]
    · have hback := ih (j - off) (by omega) (by omega)
      rw [show pos - off + j = pos + (j - off) by omega, hback, Nat.mod_eq_sub_mod hge]

variable {st : DecompressState} {item : Item}

/-- A tag restores the bytes that it stands for, as far as they are wanted. -/
theorem decompressTag_spec {len off destend : ℕ}
    (hrest : Restored source st.dest st.dp) (hlen : 3 ≤ len)
    (hmatch : IsMatch source st.dp slen len off) (hholds : Holds m st.sp (tagBytes len off))
    (hend : st.sp + (tagBytes len off).length ≤ srcend) :
    ∃ dest, decompressTag m srcend destend st =
        some (.ok
          { sp := st.sp + (tagBytes len off).length, dp := st.dp + min len (destend - st.dp),
            dest := dest }) ∧
      Restored source dest (st.dp + min len (destend - st.dp)) := by
  obtain ⟨hpos, hoff, hle, hmax, hstop, -⟩ := id hmatch
  obtain ⟨hlow, hoffset, hext⟩ := tagBytes_decode (by omega) hlen hmax hholds
  obtain ⟨dest, hcopy, hframe, hperiod⟩ :=
    copyMatch_spec st.dest hpos hle (min len (destend - st.dp))
  refine ⟨dest, ?_, ?_⟩
  · unfold decompressTag
    rw [hlow, hoffset]
    by_cases hlong : 17 < len
    · have hbytes : (tagBytes len off).length = 3 := by rw [tagBytes, if_pos hlong]; rfl
      have hcode : min len 18 = 18 := by omega
      rw [hbytes] at hend ⊢
      rw [hcode]
      dsimp only
      rw [if_pos rfl]
      rw [hext hlong, if_neg (by omega), hcopy]
      rfl
    · have hbytes : (tagBytes len off).length = 2 := by rw [tagBytes, if_neg hlong]; rfl
      have hcode : min len 18 = len := by omega
      rw [hbytes] at hend ⊢
      rw [hcode]
      dsimp only
      rw [if_neg (show ¬ len = 18 by omega)]
      rw [if_neg (by omega), hcopy]
      rfl
  · intro i hi
    rcases Nat.lt_or_ge i st.dp with hlt | hge
    · rw [hframe i hlt, hrest i hlt]
    · obtain ⟨j, rfl⟩ := Nat.exists_eq_add_of_le hge
      rw [hperiod j (by omega), hmatch.repeats_mod (by omega)]
      have := Nat.mod_lt j hpos
      exact hrest _ (by omega)

/-- An item restores the bytes that it stands for, as far as they are wanted. -/
theorem decompressItem_restores (destend : ℕ) {items : List Item}
    {st : ItemState} (hrest : Restored source st.dest st.dp)
    (hitem : item.Describes source slen st.dp)
    (hholds : Holds m st.sp item.bytes) (hend : st.sp + item.bytes.length ≤ srcend)
    (hctrl : st.ctrl = ctrlByte (item :: items)) (hlen : items.length ≤ 7)
    (hdp : st.dp < destend) :
    ∃ dest, decompressItem m srcend destend st =
        some (.ok
          { sp := st.sp + item.bytes.length, dp := st.dp + min item.size (destend - st.dp),
            dest := dest, ctrl := ctrlByte items, ctrlc := st.ctrlc + 1 }) ∧
      Restored source dest (st.dp + min item.size (destend - st.dp)) := by
  have hbit := ctrlByte_cons_and_one item hlen
  have hshift := ctrlByte_cons_shiftRight item hlen
  unfold decompressItem
  rw [hctrl, hbit, hshift]
  cases item with
  | literal byte =>
    have hone : min (Item.literal byte).size (destend - st.dp) = 1 := by
      rw [Item.size]
      omega
    rw [hone]
    refine ⟨update st.dest st.dp (m st.sp), rfl, fun i hi => ?_⟩
    rcases Nat.lt_succ_iff_lt_or_eq.mp hi with hlt | rfl
    · rw [update_of_ne hlt.ne, hrest i hlt]
    · rw [update_self, hholds.1, hitem.2]
  | tag =>
    obtain ⟨dest, htag, hrest'⟩ := decompressTag_spec hrest hitem.1 hitem.2 hholds hend
    refine ⟨dest, ?_, hrest'⟩
    rw [htag]
    rfl

/-- The groups that the compressor writes: only the last one may be incomplete. -/
def Grouped : List (List Item) → Prop
  | [] => True
  | g :: rest => g ≠ [] ∧ g.length ≤ 8 ∧ (rest ≠ [] → g.length = 8) ∧ Grouped rest

theorem Grouped.of_full {groups : List (List Item)} {g : List Item}
    (hfull : ∀ x ∈ groups, x.length = 8) (hne : g ≠ []) (hle : g.length ≤ 8) :
    Grouped (groups ++ [g]) := by
  induction groups with
  | nil => exact ⟨hne, hle, fun h => absurd rfl h, trivial⟩
  | cons x _ ih =>
    have hx : x.length = 8 := hfull x (by simp)
    refine ⟨?_, hx.le, fun _ => hx, ih fun y hy => hfull y (by simp [hy])⟩
    rintro rfl
    cases hx

/-- Nothing is left to come behind the end of the input. -/
theorem eq_nil_of_covers {g : List Item} {rest : List (List Item)}
    (hcovers : Covers source slen slen (g ++ rest.flatten) slen) (hgrouped : Grouped rest) :
    g = [] ∧ rest = [] := by
  have hnil : g ++ rest.flatten = [] := by
    cases hitems : g ++ rest.flatten with
    | nil => rfl
    | cons =>
      rw [hitems] at hcovers
      have := hcovers.1.size_pos
      omega
  obtain ⟨hg, hflatten⟩ := append_eq_nil_iff.mp hnil
  refine ⟨hg, ?_⟩
  cases rest with
  | nil => rfl
  | cons => exact absurd (append_eq_nil_iff.mp hflatten).1 hgrouped.1

variable {full : ℕ → UInt8} {destend total free : ℕ} {g : List Item} {rest : List (List Item)}

/-- The number of bytes that `wanted` bytes of output take at most, when the current control
byte has bits for `free` more items. -/
def needed (wanted free : ℕ) : ℕ := wanted + 2 + (wanted - free + 7) / 8

theorem Item.bytes_length_le {source : ℕ → UInt8} {slen pos : ℕ}
    (h : item.Describes source slen pos) :
    item.bytes.length ≤ item.size ∧ item.bytes.length ≤ 3 := by
  cases item with
  | literal => exact ⟨le_rfl, by simp [Item.bytes]⟩
  | tag =>
    have hlen := h.1
    rw [Item.bytes, tagBytes]
    split_ifs
    · exact ⟨hlen, le_rfl⟩
    · exact ⟨Nat.le_of_succ_le hlen, by simp⟩

/-- Output is wanted, the items of a group and then whole groups are to come, and enough of
their bytes is in the source. -/
structure DecompressState.Pending (source full : ℕ → UInt8) (slen srcend destend total free : ℕ)
    (g : List Item) (rest : List (List Item)) (st : DecompressState) : Prop where
  restored : Restored source st.dest st.dp
  wanted : st.dp < destend
  holds : Holds full st.sp (payload g ++ stream rest)
  covers : Covers source slen st.dp (g ++ rest.flatten) slen
  grouped : Grouped rest
  stop : st.sp + (payload g ++ stream rest).length = total
  budget : min total (st.sp + needed (destend - st.dp) free) ≤ srcend

/-- All wanted output is there; if that is the whole input, all items have been read. -/
structure DecompressState.Finished (source : ℕ → UInt8) (slen destend total : ℕ)
    (st : DecompressState) : Prop where
  dp_eq : st.dp = destend
  restored : Restored source st.dest destend
  sp_eq : destend = slen → st.sp = total

/-- The next item is in the source as a whole. -/
theorem DecompressState.Pending.item_fits
    (h : st.Pending source full slen srcend destend total free (item :: g) rest) :
    st.sp + item.bytes.length ≤ srcend := by
  have hbudget := h.budget
  have hstop := h.stop
  have hbytes := (Item.bytes_length_le h.covers.1).2
  have hwanted := h.wanted
  have hpayload : payload (item :: g) = item.bytes ++ payload g := rfl
  rw [hpayload, append_assoc, length_append] at hstop
  rw [needed] at hbudget
  omega

/-- One item, after which there is all the output or still enough of the source. -/
theorem decompressItem_pending {st : ItemState} (hm : ∀ i < srcend, m i = full i)
    (h : st.toDecompressState.Pending source full slen srcend destend total (free + 1)
      (item :: g) rest)
    (hctrl : st.ctrl = ctrlByte (item :: g)) (hlen : g.length ≤ 7) :
    Ends (fun _ => False)
      (fun st' => st.sp < st'.sp ∧ st'.ctrlc = st.ctrlc + 1 ∧
        (st'.toDecompressState.Finished source slen destend total ∨ st'.ctrl = ctrlByte g ∧
          st'.toDecompressState.Pending source full slen srcend destend total free g rest))
      (decompressItem m srcend destend st) := by
  have hfits := h.item_fits
  obtain ⟨hrest, hwanted, hholds, ⟨hitem, hcovers⟩, hgrouped, hstop, hbudget⟩ := h
  have hpayload : payload (item :: g) ++ stream rest =
      item.bytes ++ (payload g ++ stream rest) := append_assoc _ _ _
  rw [hpayload] at hholds hstop
  rw [length_append, ← Nat.add_assoc] at hstop
  obtain ⟨hbytes, hholds'⟩ := holds_append.mp hholds
  have hbytes' : Holds m st.sp item.bytes := hbytes.congr fun i _ hi => hm i (by omega)
  obtain ⟨_, hstep, hrest'⟩ :=
    decompressItem_restores destend hrest hitem hbytes' hfits hctrl hlen hwanted
  have hpos := item.bytes_pos
  rw [hstep]
  refine ⟨Nat.lt_add_of_pos_right hpos, rfl, ?_⟩
  by_cases hpart : destend - st.dp ≤ item.size
  · -- the item reaches the end of what is wanted, perhaps with a part of it
    left
    rw [Nat.min_eq_right hpart, Nat.add_sub_cancel' hwanted.le] at hrest' ⊢
    refine ⟨rfl, hrest', fun hwhole => ?_⟩
    have hend := hitem.size_pos.2
    rw [show st.dp + item.size = slen by omega] at hcovers
    obtain ⟨rfl, rfl⟩ := eq_nil_of_covers hcovers hgrouped
    exact hstop
  · -- the item takes no more than it gives, and one of the free bits
    right
    rw [Nat.min_eq_left (Nat.le_of_not_le hpart)] at hrest' ⊢
    have hsize := (Item.bytes_length_le hitem).1
    rw [needed] at hbudget
    refine ⟨rfl, hrest', ?_, hholds', hcovers, hgrouped, hstop, ?_⟩
    all_goals dsimp only
    · omega
    · rw [needed]
      omega

/-- The loop over the items of a control byte. -/
def ItemState.Pending (source full : ℕ → UInt8) (slen srcend destend total start : ℕ)
    (rest : List (List Item)) (st : ItemState) : Prop :=
  start < st.sp ∧ (st.toDecompressState.Finished source slen destend total ∨
    ∃ g, st.ctrl = ctrlByte g ∧ g.length + st.ctrlc ≤ 8 ∧ (rest ≠ [] → g.length + st.ctrlc = 8) ∧
      st.toDecompressState.Pending source full slen srcend destend total (8 - st.ctrlc) g rest)

/-- While output is wanted, there is an item to come or a whole group. -/
theorem DecompressState.Pending.rest_ne_nil (hdest : destend ≤ slen)
    (h : st.Pending source full slen srcend destend total free [] rest) : rest ≠ [] := by
  rintro rfl
  have hdp : st.dp = slen := h.covers
  have hwanted := h.wanted
  omega

theorem decompressGroup_pending (hm : ∀ i < srcend, m i = full i) (hdest : destend ≤ slen)
    (h : st.Pending source full slen srcend destend total 0 [] (g :: rest)) :
    Ends (fun _ => False)
      (fun st' => st.sp < st'.sp ∧ (st'.Finished source slen destend total ∨
        st'.Pending source full slen srcend destend total 0 [] rest))
      (decompressGroup m srcend destend st) := by
  obtain ⟨hrest, hwanted, hholds, hcovers, ⟨-, hle, hfull, hgrouped⟩, hstop, hbudget⟩ := h
  rw [payload_nil_append_stream] at hholds hstop
  rw [length_cons] at hstop
  rw [needed] at hbudget
  have hctrl : m st.sp = ctrlByte g := (hm st.sp (by omega)).trans hholds.1
  have hstart : ItemState.Pending source full slen srcend destend total st.sp rest
      { sp := st.sp + 1, dp := st.dp, dest := st.dest, ctrl := m st.sp, ctrlc := 0 } := by
    refine ⟨Nat.lt_succ_self _, .inr ⟨g, hctrl, hle, hfull, hrest, hwanted, hholds.2, hcovers,
      hgrouped, by dsimp only; omega, ?_⟩⟩
    dsimp only
    rw [needed]
    omega
  have hloop : Ends (fun _ => False)
      (fun st' : ItemState => st'.Pending source full slen srcend destend total st.sp rest ∧
        (decide (st'.ctrlc < 8) && decide (st'.sp < srcend) && decide (st'.dp < destend)) = false)
      (whileLoop (fun st : ItemState => st.ctrlc < 8 && st.sp < srcend && st.dp < destend)
        (decompressItem m srcend destend) 9
        { sp := st.sp + 1, dp := st.dp, dest := st.dest, ctrl := m st.sp, ctrlc := 0 }) := by
    refine whileLoop_ends _ _ (fun st => 8 - st.ctrlc) ?_ hstart (Nat.lt_succ_self 8)
    rintro st' ⟨hsp, hfinished | ⟨items, hctrl', hlen, hlen', hpending⟩⟩ hcond
    · simp [hfinished.dp_eq] at hcond
    · simp only [Bool.and_eq_true, decide_eq_true_eq] at hcond
      cases items with
      | nil =>
        -- the control byte has been used up, since another group follows
        have := hlen' (hpending.rest_ne_nil hdest)
        rw [length_nil] at this
        omega
      | cons _ items =>
        rw [length_cons] at hlen hlen'
        rw [show 8 - st'.ctrlc = 8 - (st'.ctrlc + 1) + 1 by omega] at hpending
        refine (decompressItem_pending hm hpending hctrl' (by omega)).imp (fun _ hf => hf) ?_
        rintro _ ⟨hsp', hctrlc, hnext⟩
        refine ⟨⟨hsp.trans hsp', hnext.imp_right ?_⟩, by omega⟩
        rintro ⟨hctrl'', hpending'⟩
        rw [hctrlc]
        exact ⟨items, hctrl'', by omega, fun hne => by have := hlen' hne; omega, hpending'⟩
  obtain ⟨st', hst', ⟨hsp, hstate⟩, hdone⟩ := hloop.exists_ok
  unfold decompressGroup
  rw [hst']
  refine ⟨hsp, hstate.imp_right ?_⟩
  rintro ⟨items, -, hlen, hlen', hpending⟩
  cases items with
  | nil =>
    have hused := hlen' (hpending.rest_ne_nil hdest)
    rw [length_nil] at hused
    rwa [show 8 - st'.ctrlc = 0 by omega] at hpending
  | cons item =>
    -- the loop would have gone on with the item
    have hfits := hpending.item_fits
    have hpos := item.bytes_pos
    have hwanted' := hpending.wanted
    rw [length_cons] at hlen
    simp at hdone
    omega

/-- The decompressor reads as many groups as the wanted output takes. -/
theorem pglzDecompress_spec {groups : List (List Item)} (hm : ∀ i < srcend, m i = full i)
    (hdest : destend ≤ slen) (hgrouped : Grouped groups) (hholds : Holds full 0 (stream groups))
    (hbudget : min (stream groups).length (needed destend 0) ≤ srcend)
    (hcovers : Covers source slen 0 groups.flatten slen) (dest : ℕ → UInt8) {checkComplete : Bool}
    (hcomplete : checkComplete = true → destend = slen ∧ srcend = (stream groups).length) :
    ∃ dest', pglzDecompress m srcend dest destend checkComplete = some ((destend : ℤ), dest') ∧
      Restored source dest' destend := by
  have hzero : Restored source dest 0 := fun i hi => absurd hi (Nat.not_lt_zero i)
  have hstart : DecompressState.Finished source slen destend (stream groups).length
        { sp := 0, dp := 0, dest := dest } ∨
      ∃ rest, DecompressState.Pending source full slen srcend destend (stream groups).length 0 []
        rest { sp := 0, dp := 0, dest := dest } := by
    rcases Nat.eq_zero_or_pos destend with rfl | hpos
    · refine .inl ⟨rfl, hzero, ?_⟩
      rintro rfl
      rw [(eq_nil_of_covers (g := []) hcovers hgrouped).2]
      rfl
    · exact .inr ⟨groups, hzero, hpos, hholds, hcovers, hgrouped, by simp [payload],
        by simpa using hbudget⟩
  have hloop : Ends (fun _ => False)
      (fun st : DecompressState => (st.Finished source slen destend (stream groups).length ∨
          ∃ rest, st.Pending source full slen srcend destend (stream groups).length 0 [] rest) ∧
        (decide (st.sp < srcend) && decide (st.dp < destend)) = false)
      (whileLoop (fun st : DecompressState => st.sp < srcend && st.dp < destend)
        (decompressGroup m srcend destend) (srcend + 1) { sp := 0, dp := 0, dest := dest }) := by
    refine whileLoop_ends _ _ (fun st => srcend - st.sp) ?_ hstart (Nat.lt_succ_self _)
    rintro _ (hfinished | ⟨rest, hpending⟩) hcond
    · simp [hfinished.dp_eq] at hcond
    · simp only [Bool.and_eq_true, decide_eq_true_eq] at hcond
      obtain ⟨g, rest, rfl⟩ := exists_cons_of_ne_nil (hpending.rest_ne_nil hdest)
      refine (decompressGroup_pending hm hdest hpending).imp (fun _ hf => hf) ?_
      rintro _ ⟨hsp, hstate⟩
      exact ⟨hstate.imp_right fun hpending' => ⟨rest, hpending'⟩, by omega⟩
  obtain ⟨st, hst, hstate, hdone⟩ := hloop.exists_ok
  have hfinished : st.Finished source slen destend (stream groups).length := by
    rcases hstate with hfinished | ⟨rest, hpending⟩
    · exact hfinished
    · -- the source is not at its end, and the loop would have gone on
      obtain ⟨g, rest, rfl⟩ := exists_cons_of_ne_nil (hpending.rest_ne_nil hdest)
      have hbudget' := hpending.budget
      have hstop := hpending.stop
      have hwanted := hpending.wanted
      rw [payload_nil_append_stream, length_cons] at hstop
      rw [needed] at hbudget'
      simp at hdone
      omega
  refine ⟨st.dest, ?_, hfinished.restored⟩
  unfold pglzDecompress
  rw [hst]
  dsimp only [Option.map_some]
  rw [if_neg, hfinished.dp_eq]
  rintro ⟨hcheck, hne⟩
  obtain ⟨hwhole, hall⟩ := hcomplete hcheck
  exact hne.elim (fun h => h hfinished.dp_eq) fun h => h ((hfinished.sp_eq hwhole).trans hall.symm)

end Decompress

/-- Whatever `pglz_compress` returns, it returns; and when it returns the length of a result,
`pglz_decompress` of that many bytes gives the input back, with or without the check for
completeness, whatever the buffers hold before and the source behind those bytes. -/
theorem pglzDecompress_pglzCompress (source : ℕ → UInt8) (slen : ℕ) (dest : ℕ → UInt8)
    (entries : ℕ → PGLZHistEntry) (strategy : Option PGLZStrategy) :
    (pglzCompress source slen dest entries strategy).isSome ∧
      ∀ (result : ℤ) (compressed m raw : ℕ → UInt8) (checkComplete : Bool),
        pglzCompress source slen dest entries strategy = some (result, compressed) →
        0 ≤ result → (∀ i < result.toNat, m i = compressed i) →
        ∃ raw', pglzDecompress m result.toNat raw slen checkComplete = some ((slen : ℤ), raw') ∧
          ∀ i < slen, raw' i = source i := by
  obtain ⟨r, hr, hencodes⟩ := pglzCompress_encodes source slen dest entries strategy
  refine ⟨by rw [hr]; rfl, ?_⟩
  intro result compressed m raw _ hcompress hresult hm
  obtain rfl : r = (result, compressed) := Option.some.inj (hr.symm.trans hcompress)
  obtain ⟨groups, g, hfull, hne, hle, hlen, hholds, hcovers⟩ := hencodes hresult
  have hsize : (stream (groups ++ [g])).length = result.toNat := by omega
  have hholds' : Holds m 0 (stream (groups ++ [g])) :=
    hholds.congr fun i _ hi => hm i (by omega)
  exact pglzDecompress_spec (fun _ _ => rfl) le_rfl (Grouped.of_full hfull hne hle) hholds'
    ((Nat.min_le_left _ _).trans hsize.le) (by simpa using hcovers) raw fun _ => ⟨rfl, hsize.symm⟩

/-- A repeated byte is a literal and a match that overlaps with itself. -/
theorem pglzDecompress_pglzCompress_repeated :
    ∃ compressed raw, pglzCompress (fun _ => 97) 24 (fun _ => 0) (fun _ => ⟨0, none, 0, 0⟩)
        (some strategyAlways) = some (5, compressed) ∧
      pglzDecompress compressed 5 (fun _ => 0) 24 true = some (24, raw) ∧
      ∀ i < 24, raw i = 97 := by
  obtain ⟨hsome, hround⟩ := pglzDecompress_pglzCompress (fun _ => 97) 24 (fun _ => 0)
    (fun _ => ⟨0, none, 0, 0⟩) (some strategyAlways)
  obtain ⟨⟨result, compressed⟩, hcompress⟩ := Option.isSome_iff_exists.mp hsome
  have hsize : (pglzCompress (fun _ => 97) 24 (fun _ => 0) (fun _ => ⟨0, none, 0, 0⟩)
      (some strategyAlways)).map Prod.fst = some 5 := by decide
  obtain rfl : result = 5 := by
    rw [hcompress] at hsize
    exact Option.some.inj hsize
  obtain ⟨raw, hraw, hsame⟩ := hround 5 compressed compressed (fun _ => 0) true hcompress
    (by decide) (fun _ _ => rfl)
  exact ⟨compressed, raw, hcompress, hraw, hsame⟩

/-!
## Decompressing a prefix

`pglz_maximum_compressed_size` says how much of the compressed data is fetched for the first
`rawsize` bytes of the value.
-/

/-- `pglz_maximum_compressed_size`. The 64-bit computation does not overflow. -/
def pglzMaximumCompressedSize (rawsize totalCompressedSize : ℕ) : ℕ :=
  min ((rawsize * 9 + 7) / 8 + 2) totalCompressedSize

/-- As many bytes of a compressed value as `pglz_maximum_compressed_size` says are enough for the
first `rawsize` bytes of the value, whatever lies behind them. -/
theorem pglzDecompress_prefix (source : ℕ → UInt8) (slen : ℕ) (dest : ℕ → UInt8)
    (entries : ℕ → PGLZHistEntry) (strategy : Option PGLZStrategy) (result : ℤ)
    (compressed : ℕ → UInt8)
    (hcompress : pglzCompress source slen dest entries strategy = some (result, compressed))
    (hresult : 0 ≤ result) (rawsize : ℕ) (hraw : rawsize ≤ slen) (m raw : ℕ → UInt8)
    (hm : ∀ i < pglzMaximumCompressedSize rawsize result.toNat, m i = compressed i) :
    ∃ raw', pglzDecompress m (pglzMaximumCompressedSize rawsize result.toNat) raw rawsize false =
        some ((rawsize : ℤ), raw') ∧ ∀ i < rawsize, raw' i = source i := by
  obtain ⟨r, hr, hencodes⟩ := pglzCompress_encodes source slen dest entries strategy
  obtain rfl : r = (result, compressed) := Option.some.inj (hr.symm.trans hcompress)
  obtain ⟨_, g, hfull, hne, hle, hlen, hholds, hcovers⟩ := hencodes hresult
  refine pglzDecompress_spec hm hraw (Grouped.of_full hfull hne hle) hholds ?_
    (by simpa using hcovers) raw nofun
  -- nine bits for each byte, in whole bytes, and two bytes for the rest of a tag
  rw [needed, pglzMaximumCompressedSize]
  omega

/-- The first of 24 repeated bytes, from the first four of the five compressed bytes. -/
theorem pglzDecompress_prefix_repeated :
    ∃ compressed raw, pglzCompress (fun _ => 97) 24 (fun _ => 0) (fun _ => ⟨0, none, 0, 0⟩)
        (some strategyAlways) = some (5, compressed) ∧
      pglzDecompress (fun i => if i < 4 then compressed i else 0)
          (pglzMaximumCompressedSize 1 5) (fun _ => 0) 1 false =
        some (1, raw) ∧
      raw 0 = 97 := by
  have hsize : (pglzCompress (fun _ => 97) 24 (fun _ => 0) (fun _ => ⟨0, none, 0, 0⟩)
      (some strategyAlways)).map Prod.fst = some 5 := by decide
  obtain ⟨⟨_, compressed⟩, hcompress, rfl⟩ := Option.map_eq_some_iff.mp hsize
  obtain ⟨raw, hraw, hsame⟩ := pglzDecompress_prefix (fun _ => 97) 24 (fun _ => 0)
    (fun _ => ⟨0, none, 0, 0⟩) (some strategyAlways) _ compressed hcompress (by decide) 1
    (by decide) (fun i => if i < 4 then compressed i else 0) (fun _ => 0)
    (fun i hi => if_pos (show i < 4 from hi))
  exact ⟨compressed, raw, hcompress, hraw, hsame 0 (by decide)⟩

/-! ### The size of the output buffer -/

/-- `PGLZ_MAX_OUTPUT`. -/
def pglzMaxOutput (dlen : ℕ) : ℕ := dlen + 4

/-- Only the first `n` bytes of the buffer were written, and the control byte is one of them. -/
structure Output.Within (dest : ℕ → UInt8) (n : ℕ) (o : Output) : Prop where
  ctrlp : ∀ p ∈ o.ctrlp, p < n
  dest : ∀ a ≥ n, o.dest a = dest a

namespace Output.Within

variable {dest : ℕ → UInt8} {n : ℕ} {o : Output}

theorem writeCtrl (h : o.Within dest n) : ∀ a ≥ n, o.writeCtrl.dest a = dest a := by
  intro a ha
  rw [Output.writeCtrl]
  split
  · exact h.dest a ha
  · next p hp =>
    have := h.ctrlp p hp
    exact (update_of_ne (by omega) _ _).trans (h.dest a ha)

theorem put (h : o.Within dest n) (bytes : List UInt8) (hbp : o.bp + 1 + bytes.length ≤ n) :
    (o.pglzOutCtrl.put bytes).Within dest n := by
  have hctrl : o.pglzOutCtrl.Within dest n ∧ o.pglzOutCtrl.bp ≤ o.bp + 1 := by
    rw [Output.pglzOutCtrl]
    split_ifs
    · refine ⟨⟨?_, h.writeCtrl⟩, le_rfl⟩
      rintro p ⟨⟩
      omega
    · exact ⟨h, Nat.le_succ _⟩
  refine ⟨hctrl.1.ctrlp, fun a ha => ?_⟩
  exact (writeBytes_of_le bytes (by omega)).trans (hctrl.1.dest a ha)

end Output.Within

theorem resultMax_le (strategy : PGLZStrategy) (slen : ℕ) :
    (strategy.limits slen).resultMax ≤ slen := by
  have hrate : 0 ≤ (if strategy.minCompRate < 0 then 0
      else if strategy.minCompRate > 99 then 99 else strategy.minCompRate) := by
    split_ifs <;> omega
  dsimp only [PGLZStrategy.limits]
  generalize (if strategy.minCompRate < 0 then (0 : ℤ) else _) = rate at hrate ⊢
  have hle (n : ℤ) (hn : 0 ≤ n) := mul_le_mul_of_nonneg_left (show 100 - rate ≤ 100 by omega) hn
  split_ifs
  · have := hle (slen / 100) (by omega)
    omega
  · have := hle slen (by omega)
    omega

theorem compressStep_within {source dest : ℕ → UInt8} {slen : ℕ} {limits : Limits}
    (hmax : limits.resultMax ≤ slen) (st : CompressState)
    (r : Except (ℤ × (ℕ → UInt8)) CompressState)
    (h : st.out.Within dest (pglzMaxOutput slen))
    (hr : compressStep source slen limits st = some r) :
    Ends (fun result => ∀ a ≥ pglzMaxOutput slen, result.2 a = dest a)
      (·.out.Within dest (pglzMaxOutput slen)) (some r) := by
  unfold compressStep at hr
  split_ifs at hr with hfull
  · cases hr
    exact h.dest
  · cases hr
    exact h.dest
  · obtain ⟨found, -, rfl⟩ := Option.map_eq_some_iff.mp hr
    have hbp : st.out.bp + 1 + 3 ≤ pglzMaxOutput slen := by
      rw [pglzMaxOutput]
      omega
    cases found with
    | none =>
      have hput := h.put [source st.dp] (by rw [length_singleton]; omega)
      exact ⟨hput.ctrlp, hput.dest⟩
    | some m =>
      have hlen : (tagBytes m.1 m.2).length ≤ 3 := by
        rw [tagBytes]
        split_ifs <;> simp
      have hput := h.put (tagBytes m.1 m.2) (by omega)
      exact ⟨hput.ctrlp, hput.dest⟩

/-- Whatever the input and the strategy, and also when it fails, the compressor writes to no more
than `PGLZ_MAX_OUTPUT` bytes of the buffer. -/
theorem pglzCompress_within (source : ℕ → UInt8) (slen : ℕ) (dest : ℕ → UInt8)
    (entries : ℕ → PGLZHistEntry) (strategy : Option PGLZStrategy) :
    ∃ result, pglzCompress source slen dest entries strategy = some result ∧
      ∀ a ≥ pglzMaxOutput slen, result.2 a = dest a := by
  obtain ⟨result, hresult, -⟩ := pglzCompress_encodes source slen dest entries strategy
  refine ⟨result, hresult, ?_⟩
  unfold pglzCompress at hresult
  dsimp only at hresult
  split_ifs at hresult
  · cases hresult
    exact fun _ _ => rfl
  · obtain ⟨r, hloop, rfl⟩ := Option.map_eq_some_iff.mp hresult
    have hstart : (CompressState.start dest entries).out.Within dest (pglzMaxOutput slen) :=
      ⟨by simp [CompressState.start], fun _ _ => rfl⟩
    have hr := whileLoop_keeps (compressStep_within (resultMax_le _ slen)) hstart hloop
    cases r with
    | error => exact hr
    | ok st =>
      dsimp only [CompressState.finish]
      split_ifs <;> exact hr.writeCtrl

end PgCutover.Pglz
