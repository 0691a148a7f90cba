import Mathlib.Tactic.IntervalCases
import Mathlib.Tactic.Linarith
import PgCutover.Lib.Memory
import PgCutover.Lib.Loops

/-!
# `pglz_compress`

The compressor of `pg_lzcompress.c`. Positions in the input, history entries and addresses
in the output buffer are natural numbers. The history has one list of entries for each
hash key; the entries are linked in both directions and an entry is recycled once all
of them are in use.
-/

namespace PgCutover.Pglz

open Lib Function

/-- The entries of the history. -/
def historySize : ℕ := 4096

/-- The longest match. -/
def maxMatch : ℕ := 273

/-- `INT_MAX`. -/
def intMax : ℤ := 2 ^ 31 - 1

/-- The limits that a caller sets. -/
structure PGLZStrategy where
  minInputSize : ℤ
  maxInputSize : ℤ
  minCompRate : ℤ
  firstSuccessBy : ℤ
  matchSizeGood : ℤ
  matchSizeDrop : ℤ
  deriving DecidableEq, Repr

/-- `PGLZ_strategy_default`. -/
def strategyDefault : PGLZStrategy where
  minInputSize := 32
  maxInputSize := intMax
  minCompRate := 25
  firstSuccessBy := 1024
  matchSizeGood := 128
  matchSizeDrop := 10

/-- `PGLZ_strategy_always`. -/
def strategyAlways : PGLZStrategy where
  minInputSize := 0
  maxInputSize := intMax
  minCompRate := 0
  firstSuccessBy := intMax
  matchSizeGood := 128
  matchSizeDrop := 6

/-! ### The history -/

/-- `PGLZ_HistEntry`. Entries are named by their index; the index 0 is `INVALID_ENTRY`. The
link to the next entry is never `NULL`. -/
structure PGLZHistEntry where
  next : ℕ
  prev : Option ℕ
  hindex : ℕ
  pos : ℕ
  deriving DecidableEq, Repr

/-- `hist_start` and `hist_entries`, with `hist_next` and `hist_recycle`. -/
structure History where
  start : ℕ → ℕ
  entries : ℕ → PGLZHistEntry
  next : ℕ
  recycle : Bool

/-- `pglz_hist_idx`. The characters of the input are signed. -/
def pglzHistIdx (source : ℕ → UInt8) (s e : ℕ) (mask : BitVec 32) : ℕ :=
  let char (i : ℕ) : BitVec 32 := (source (s + i)).toBitVec.signExtend 32
  let key :=
    if e - s < 4 then char 0
    else (char 0 <<< 6) ^^^ (char 1 <<< 4) ^^^ (char 2 <<< 2) ^^^ char 3
  (key &&& mask).toNat

namespace History

variable (h : History)

/-- Set an entry's link to its successor. -/
def setNext (e next : ℕ) : History :=
  { h with entries := update h.entries e { h.entries e with next := next } }

/-- Set an entry's link to its predecessor. -/
def setPrev (e : ℕ) (prev : Option ℕ) : History :=
  { h with entries := update h.entries e { h.entries e with prev := prev } }

/-- Set the first entry of a list. -/
def setStart (hindex e : ℕ) : History :=
  { h with start := update h.start hindex e }

/-- Take an entry out of its list. -/
def delink (e : ℕ) : History :=
  let h := match (h.entries e).prev with
    | none => h.setStart (h.entries e).hindex (h.entries e).next
    | some prev => h.setNext prev (h.entries e).next
  h.setPrev (h.entries e).next (h.entries e).prev

/-- Put an entry at the head of a list. When the list is empty, this scribbles on the
invalid entry. -/
def link (e hindex pos : ℕ) : History :=
  let first := h.start hindex
  let entry : PGLZHistEntry := { next := first, prev := none, hindex := hindex, pos := pos }
  let h := { h with entries := update h.entries e entry }
  (h.setPrev first (some e)).setStart hindex e

/-- Go on to the next entry. From the last one on, entries are recycled. -/
def advance : History :=
  if h.next + 1 ≥ historySize + 1 then { h with next := 1, recycle := true }
  else { h with next := h.next + 1 }

end History

/-- `pglz_hist_add`. -/
def pglzHistAdd (h : History) (source : ℕ → UInt8) (s e : ℕ) (mask : BitVec 32) : History :=
  let hindex := pglzHistIdx source s e mask
  let h := if h.recycle then h.delink h.next else h
  (h.link h.next hindex s).advance

/-! ### Matches -/

/-- `while (ip < end && *ip == *hp && thislen < PGLZ_MAX_MATCH)`, where `n` is what is left to
the maximum. -/
def extendMatch (source : ℕ → UInt8) (e : ℕ) : ℕ → ℕ → ℕ → ℕ → ℕ
  | 0, _, _, thislen => thislen
  | n + 1, ip, hp, thislen =>
    if ip < e ∧ source ip = source hp then extendMatch source e n (ip + 1) (hp + 1) (thislen + 1)
    else thislen

/-- The length of the match with a history position, when the best one so far has length
`len`. -/
def matchLength (source : ℕ → UInt8) (input e hp len : ℕ) : ℕ :=
  if len ≥ 16 then
    -- memcmp
    if ∀ i < len, source (input + i) = source (hp + i) then
      extendMatch source e (maxMatch - len) (input + len) (hp + len) len
    else 0
  else extendMatch source e maxMatch input hp 0

/-- The variables of `pglz_find_match`. -/
structure FindState where
  hent : ℕ
  len : ℕ
  off : ℕ
  goodMatch : ℤ

/-- One history entry of `pglz_find_match`. The loop is left with the length and the offset
of the best match. -/
def findStep (h : History) (source : ℕ → UInt8) (input e : ℕ) (goodDrop : ℤ) (st : FindState) :
    Except (ℕ × ℕ) FindState :=
  let entry := h.entries st.hent
  let thisoff := input - entry.pos
  if thisoff ≥ 0x0fff then .error (st.len, st.off)
  else
    let thislen := matchLength source input e entry.pos st.len
    let best := if thislen > st.len then (thislen, thisoff) else (st.len, st.off)
    if entry.next ≠ 0 ∧ best.1 ≥ st.goodMatch then .error best
    else .ok
      { hent := entry.next
        len := best.1
        off := best.2
        goodMatch :=
          if entry.next ≠ 0 then st.goodMatch - (st.goodMatch * goodDrop) / 100
          else st.goodMatch }

/-- `pglz_find_match`: the length and the offset of a match, if there is one that saves at
least one byte. The positions along a list go down, so that they bound the loop. -/
def pglzFindMatch (h : History) (source : ℕ → UInt8) (input e : ℕ) (goodMatch goodDrop : ℤ)
    (mask : BitVec 32) : Option (Option (ℕ × ℕ)) :=
  let hentno := h.start (pglzHistIdx source input e mask)
  let result := whileLoop (fun st => st.hent ≠ 0)
    (fun st => some (findStep h source input e goodDrop st)) (input + 2)
    { hent := hentno, len := 0, off := 0, goodMatch := goodMatch }
  result.map fun
    | .error (len, off) => if len > 2 then some (len, off) else none
    | .ok st => if st.len > 2 then some (st.len, st.off) else none

/-! ### The output -/

/-- The output buffer with the variables `bp`, `ctrlp`, `ctrlb` and `ctrl`. Before the first
control byte `ctrlp` points to a dummy. -/
structure Output where
  dest : ℕ → UInt8
  bp : ℕ := 0
  ctrlp : Option ℕ := none
  ctrlb : UInt8 := 0
  ctrl : UInt8 := 0

namespace Output

variable (o : Output)

/-- `*ctrlp = ctrlb`. -/
def writeCtrl : Output :=
  match o.ctrlp with
  | none => o
  | some p => { o with dest := update o.dest p o.ctrlb }

/-- `pglz_out_ctrl`. -/
def pglzOutCtrl : Output :=
  if o.ctrl &&& 0xff = 0 then
    { o.writeCtrl with ctrlp := some o.bp, bp := o.bp + 1, ctrlb := 0, ctrl := 1 }
  else o

/-- Write bytes at `bp`. -/
def put (bytes : List UInt8) : Output :=
  { o with dest := writeBytes o.dest o.bp bytes, bp := o.bp + bytes.length }

/-- `pglz_out_literal`. -/
def pglzOutLiteral (byte : UInt8) : Output :=
  let o := o.pglzOutCtrl.put [byte]
  { o with ctrl := o.ctrl <<< 1 }

end Output

/-- The two or three bytes of a tag. -/
def tagBytes (len off : ℕ) : List UInt8 :=
  if len > 17 then
    [UInt8.ofNat (((off &&& 0xf00) >>> 4) ||| 0x0f), UInt8.ofNat (off &&& 0xff),
      UInt8.ofNat (len - 18)]
  else [UInt8.ofNat (((off &&& 0xf00) >>> 4) ||| (len - 3)), UInt8.ofNat (off &&& 0xff)]

/-- `pglz_out_tag`. -/
def Output.pglzOutTag (o : Output) (len off : ℕ) : Output :=
  let o := o.pglzOutCtrl
  let o := { o with ctrlb := o.ctrlb ||| o.ctrl, ctrl := o.ctrl <<< 1 }
  o.put (tagBytes len off)

/-! ### The main loop -/

/-- What `pglz_compress` computes from the strategy before its main loop. -/
structure Limits where
  goodMatch : ℤ
  goodDrop : ℤ
  resultMax : ℤ
  firstSuccessBy : ℤ
  mask : BitVec 32

/-- The match parameters in their supported range, the maximum result size and the hash
mask. -/
def PGLZStrategy.limits (strategy : PGLZStrategy) (slen : ℕ) : Limits :=
  let needRate :=
    if strategy.minCompRate < 0 then 0
    else if strategy.minCompRate > 99 then 99
    else strategy.minCompRate
  { goodMatch :=
      if strategy.matchSizeGood > maxMatch then maxMatch
      else if strategy.matchSizeGood < 17 then 17
      else strategy.matchSizeGood
    goodDrop :=
      if strategy.matchSizeDrop < 0 then 0
      else if strategy.matchSizeDrop > 100 then 100
      else strategy.matchSizeDrop
    resultMax :=
      -- approximate to avoid overflow
      if slen > intMax / 100 then (slen / 100) * (100 - needRate)
      else (slen * (100 - needRate)) / 100
    firstSuccessBy := strategy.firstSuccessBy
    mask :=
      if slen < 128 then 511
      else if slen < 256 then 1023
      else if slen < 512 then 2047
      else if slen < 1024 then 4095
      else 8191 }

/-- The variables of the main loop. -/
structure CompressState where
  dp : ℕ
  out : Output
  hist : History
  foundMatch : Bool

/-- `while (match_len--)`: add history entries for matched characters. -/
def addMatched (source : ℕ → UInt8) (slen : ℕ) (mask : BitVec 32) : ℕ → ℕ → History → History
  | 0, _, hist => hist
  | n + 1, dp, hist => addMatched source slen mask n (dp + 1) (pglzHistAdd hist source dp slen mask)

/-- One round of the main loop: a tag or a literal. The loop is left with -1 and what is in
the output buffer then. -/
def compressStep (source : ℕ → UInt8) (slen : ℕ) (limits : Limits) (st : CompressState) :
    Option (Except (ℤ × (ℕ → UInt8)) CompressState) :=
  if st.out.bp ≥ limits.resultMax then some (.error (-1, st.out.dest))
  else if !st.foundMatch ∧ st.out.bp ≥ limits.firstSuccessBy then some (.error (-1, st.out.dest))
  else
    (pglzFindMatch st.hist source st.dp slen limits.goodMatch limits.goodDrop limits.mask).map fun
      | some (matchLen, matchOff) => .ok
          { dp := st.dp + matchLen
            out := st.out.pglzOutTag matchLen matchOff
            hist := addMatched source slen limits.mask matchLen st.dp st.hist
            foundMatch := true }
      | none => .ok
          { dp := st.dp + 1
            out := st.out.pglzOutLiteral (source st.dp)
            hist := pglzHistAdd st.hist source st.dp slen limits.mask
            foundMatch := st.foundMatch }

/-- The variables before the main loop. The entries of the history are whatever the last
call has left there. -/
def CompressState.start (dest : ℕ → UInt8) (entries : ℕ → PGLZHistEntry) : CompressState where
  dp := 0
  out := { dest := dest }
  hist := { start := fun _ => 0, entries := entries, next := 1, recycle := false }
  foundMatch := false

/-- After the main loop: the last control byte, and the check of the size. -/
def CompressState.finish (st : CompressState) (limits : Limits) : ℤ × (ℕ → UInt8) :=
  let out := st.out.writeCtrl
  if out.bp ≥ limits.resultMax then (-1, out.dest) else (out.bp, out.dest)

/-- `pglz_compress`: the size of the result, or -1, and the output buffer. -/
def pglzCompress (source : ℕ → UInt8) (slen : ℕ) (dest : ℕ → UInt8)
    (entries : ℕ → PGLZHistEntry) (strategy : Option PGLZStrategy) :
    Option (ℤ × (ℕ → UInt8)) :=
  let strategy := strategy.getD strategyDefault
  if strategy.matchSizeGood ≤ 0 ∨ slen < strategy.minInputSize ∨ slen > strategy.maxInputSize then
    some (-1, dest)
  else
    let limits := strategy.limits slen
    (whileLoop (fun st => st.dp < slen) (compressStep source slen limits) (slen + 1)
        (.start dest entries)).map fun
      | .error result => result
      | .ok st => st.finish limits

/-!
## `pglz_decompress`

The decompressor of `pg_lzcompress.c`.
-/

/-- The variables of the loop that copies a match. -/
structure CopyState where
  dest : ℕ → UInt8
  dp : ℕ
  off : ℕ
  len : ℕ

/-- Copy `off` bytes, which do not overlap with what is written, and double `off`. -/
def CopyState.double (c : CopyState) : CopyState where
  dest := memcpy c.dest c.dp (c.dp - c.off) c.off
  dp := c.dp + c.off
  off := c.off + c.off
  len := c.len - c.off

/-- Copy a match: `while (off < len)` and the copy of the remainder. -/
def copyMatch (dest : ℕ → UInt8) (dp off len : ℕ) : Option (ℕ → UInt8) :=
  (whileLoop (β := Empty) (fun c : CopyState => c.off < c.len) (fun c => some (.ok c.double))
      (len + 1) { dest := dest, dp := dp, off := off, len := len }).map fun
    | .ok c => memcpy c.dest c.dp (c.dp - c.off) c.len

/-- The variables of `pglz_decompress`. -/
structure DecompressState where
  sp : ℕ
  dp : ℕ
  dest : ℕ → UInt8

/-- The variables of the loop over the items of a control byte. -/
structure ItemState extends DecompressState where
  ctrl : UInt8
  ctrlc : ℕ

/-- A match tag. The source is corrupt when the tag goes beyond its end or the offset is not
one into the output so far. -/
def decompressTag (source : ℕ → UInt8) (srcend destend : ℕ) (st : DecompressState) :
    Option (Except (ℤ × (ℕ → UInt8)) DecompressState) :=
  let len := (source st.sp &&& 0x0f).toNat + 3
  let off := ((source st.sp &&& 0xf0).toNat <<< 4) ||| (source (st.sp + 1)).toNat
  let sp := st.sp + 2
  let (len, sp) := if len = 18 then (len + (source sp).toNat, sp + 1) else (len, sp)
  if sp > srcend ∨ off = 0 ∨ off > st.dp then some (.error (-1, st.dest))
  else
    let len := min len (destend - st.dp)
    (copyMatch st.dest st.dp off len).map fun dest =>
      .ok { sp := sp, dp := st.dp + len, dest := dest }

/-- One item: a tag or a literal byte. -/
def decompressItem (source : ℕ → UInt8) (srcend destend : ℕ) (st : ItemState) :
    Option (Except (ℤ × (ℕ → UInt8)) ItemState) :=
  let next :=
    if st.ctrl &&& 1 ≠ 0 then decompressTag source srcend destend st.toDecompressState
    else some (.ok
      { sp := st.sp + 1, dp := st.dp + 1, dest := Function.update st.dest st.dp (source st.sp) })
  next.map fun result =>
    result.map fun d => { toDecompressState := d, ctrl := st.ctrl >>> 1, ctrlc := st.ctrlc + 1 }

/-- One control byte and its items. -/
def decompressGroup (source : ℕ → UInt8) (srcend destend : ℕ) (st : DecompressState) :
    Option (Except (ℤ × (ℕ → UInt8)) DecompressState) :=
  (whileLoop (fun st : ItemState => st.ctrlc < 8 && st.sp < srcend && st.dp < destend)
      (decompressItem source srcend destend) 9
      { sp := st.sp + 1, dp := st.dp, dest := st.dest, ctrl := source st.sp, ctrlc := 0 }).map
    fun result => result.map ItemState.toDecompressState

/-- `pglz_decompress`: the number of bytes decompressed, or -1, and the output buffer. -/
def pglzDecompress (source : ℕ → UInt8) (slen : ℕ) (dest : ℕ → UInt8) (rawsize : ℕ)
    (checkComplete : Bool) : Option (ℤ × (ℕ → UInt8)) :=
  (whileLoop (fun st : DecompressState => st.sp < slen && st.dp < rawsize)
      (decompressGroup source slen rawsize) (slen + 1) { sp := 0, dp := 0, dest := dest }).map fun
    | .error result => result
    | .ok st =>
      if checkComplete ∧ (st.dp ≠ rawsize ∨ st.sp ≠ slen) then (-1, st.dest)
      else (st.dp, st.dest)

/-!
## The history of the compressor

The lists of the history are well linked (`Linked`): the links in the two directions fit, a list
begins with the entry of its hash key that has no predecessor, and positions go down along a list.
-/

/-- The lists of the entries in `live`. -/
structure Linked (live : ℕ → Prop) (h : History) : Prop where
  zero : ¬ live 0
  next : ∀ a, live a → (h.entries a).next ≠ 0 →
    live (h.entries a).next ∧ (h.entries (h.entries a).next).prev = some a ∧
      (h.entries (h.entries a).next).hindex = (h.entries a).hindex ∧
      (h.entries (h.entries a).next).pos < (h.entries a).pos
  prev : ∀ e a, live e → (h.entries e).prev = some a → live a ∧ (h.entries a).next = e
  first : ∀ e, live e → (h.entries e).prev = none → h.start (h.entries e).hindex = e
  start : ∀ k, h.start k ≠ 0 →
    live (h.start k) ∧ (h.entries (h.start k)).prev = none ∧ (h.entries (h.start k)).hindex = k

section Lists

variable {live : ℕ → Prop} {h : History}

theorem Linked.next_ne_self (hl : Linked live h) {e : ℕ} (he : live e) :
    (h.entries e).next ≠ e := by
  intro heq
  by_cases hzero : (h.entries e).next = 0
  · rw [heq] at hzero
    exact hl.zero (hzero ▸ he)
  · have := (hl.next e he hzero).2.2.2
    rw [heq] at this
    exact lt_irrefl _ this

theorem Linked.prev_ne_self (hl : Linked live h) {e : ℕ} (he : live e) :
    (h.entries e).prev ≠ some e :=
  fun heq => hl.next_ne_self he (hl.prev e e he heq).2

end Lists

/-! ### What the operations change -/

namespace History

variable (h : History) (e a k : ℕ)

variable (p : Option ℕ) (n : ℕ)

@[simp] theorem setNext_next :
    ((h.setNext e n).entries a).next = if a = e then n else (h.entries a).next := by
  by_cases ha : a = e <;> simp [setNext, ha]

@[simp] theorem setNext_prev :
    ((h.setNext e n).entries a).prev = (h.entries a).prev := by
  by_cases ha : a = e <;> simp [setNext, ha]

@[simp] theorem setNext_hindex :
    ((h.setNext e n).entries a).hindex = (h.entries a).hindex := by
  by_cases ha : a = e <;> simp [setNext, ha]

@[simp] theorem setNext_pos :
    ((h.setNext e n).entries a).pos = (h.entries a).pos := by
  by_cases ha : a = e <;> simp [setNext, ha]

@[simp] theorem setPrev_next :
    ((h.setPrev e p).entries a).next = (h.entries a).next := by
  by_cases ha : a = e <;> simp [setPrev, ha]

@[simp] theorem setPrev_prev :
    ((h.setPrev e p).entries a).prev = if a = e then p else (h.entries a).prev := by
  by_cases ha : a = e <;> simp [setPrev, ha]

@[simp] theorem setPrev_hindex :
    ((h.setPrev e p).entries a).hindex = (h.entries a).hindex := by
  by_cases ha : a = e <;> simp [setPrev, ha]

@[simp] theorem setPrev_pos :
    ((h.setPrev e p).entries a).pos = (h.entries a).pos := by
  by_cases ha : a = e <;> simp [setPrev, ha]

@[simp] theorem setNext_start : (h.setNext e n).start k = h.start k := rfl

@[simp] theorem setPrev_start : (h.setPrev e p).start k = h.start k := rfl

@[simp] theorem setStart_start : (h.setStart a e).start k = if k = a then e else h.start k := by
  simp [setStart, Function.update_apply]

@[simp] theorem setStart_entries : (h.setStart a e).entries = h.entries := rfl

end History

section Lists

variable {live : ℕ → Prop} {h : History} {e : ℕ}

namespace History

theorem delink_next (a : ℕ) :
    ((h.delink e).entries a).next =
      if (h.entries e).prev = some a then (h.entries e).next else (h.entries a).next := by
  cases hp : (h.entries e).prev <;> simp [delink, hp, eq_comm]

theorem delink_prev (hprev : (h.entries e).prev ≠ some e) (a : ℕ) :
    ((h.delink e).entries a).prev =
      if a = (h.entries e).next then (h.entries e).prev else (h.entries a).prev := by
  cases hp : (h.entries e).prev with
  | none => simp [delink, hp]
  | some p =>
    have hpe : e ≠ p := fun heq => hprev (heq ▸ hp)
    simp [delink, hp]

theorem delink_hindex (a : ℕ) : ((h.delink e).entries a).hindex = (h.entries a).hindex := by
  cases hp : (h.entries e).prev <;> simp [delink, hp]

theorem delink_pos (a : ℕ) : ((h.delink e).entries a).pos = (h.entries a).pos := by
  cases hp : (h.entries e).prev <;> simp [delink, hp]

theorem delink_start (k : ℕ) :
    (h.delink e).start k =
      if (h.entries e).prev = none ∧ k = (h.entries e).hindex then (h.entries e).next
      else h.start k := by
  cases hp : (h.entries e).prev <;> simp [delink, hp]

theorem link_start (k pos j : ℕ) :
    (h.link e k pos).start j = if j = k then e else h.start j := by
  simp [link]

theorem link_self {k : ℕ} (hne : h.start k ≠ e) (pos : ℕ) :
    (h.link e k pos).entries e = ⟨h.start k, none, k, pos⟩ := by
  simp [link, setPrev, Function.update_of_ne hne.symm]

theorem link_entries {k pos a : ℕ} (ha : a ≠ e) :
    (h.link e k pos).entries a =
      if a = h.start k then { h.entries a with prev := some e } else h.entries a := by
  by_cases hak : a = h.start k
  · simp [link, setPrev, ← hak, ha]
  · simp [link, setPrev, hak, ha]

end History

open History

/-- Take an entry out of its list. -/
theorem Linked.delink (hl : Linked live h) (he : live e) :
    Linked (fun a => live a ∧ a ≠ e) (h.delink e) := by
  have hprev := hl.prev_ne_self he
  have hnext := hl.next_ne_self he
  refine ⟨fun hz => hl.zero hz.1, ?_, ?_, ?_, ?_⟩
  · intro a ha hne
    simp only [delink_next, delink_prev hprev, delink_hindex, delink_pos] at hne ⊢
    by_cases hpa : (h.entries e).prev = some a
    · -- the successor of the entry is now that of its predecessor
      simp only [hpa, if_true] at hne ⊢
      have hea := hl.next a ha.1
      have hen := hl.next e he hne
      rw [(hl.prev e a he hpa).2] at hea
      obtain ⟨-, -, hhindex, hpos⟩ := hea (fun hz => hl.zero (hz ▸ he))
      exact ⟨⟨hen.1, hnext⟩, trivial, hen.2.2.1.trans hhindex, hen.2.2.2.trans hpos⟩
    · simp only [hpa, if_false] at hne ⊢
      obtain ⟨hlive, hprevNext, hrest⟩ := hl.next a ha.1 hne
      have hne_e : (h.entries a).next ≠ e := fun heq => hpa (heq ▸ hprevNext)
      have hne_next : (h.entries a).next ≠ (h.entries e).next := by
        intro heq
        have := (hl.next e he (heq ▸ hne)).2.1
        rw [← heq, hprevNext] at this
        exact ha.2 (Option.some.inj this)
      exact ⟨⟨hlive, hne_e⟩, by rw [if_neg hne_next, hprevNext], hrest⟩
  · intro b a hb hab
    simp only [delink_next, delink_prev hprev] at hab ⊢
    by_cases hbn : b = (h.entries e).next
    · rw [if_pos hbn] at hab
      obtain ⟨hlive, -⟩ := hl.prev e a he hab
      refine ⟨⟨hlive, fun heq => hprev (heq ▸ hab)⟩, ?_⟩
      rw [if_pos hab, hbn]
    · rw [if_neg hbn] at hab
      obtain ⟨hlive, hnexta⟩ := hl.prev b a hb.1 hab
      refine ⟨⟨hlive, fun heq => hbn (heq ▸ hnexta.symm)⟩, ?_⟩
      rw [if_neg, hnexta]
      intro hpe
      exact hb.2 (hnexta.symm.trans (hl.prev e a he hpe).2)
  · intro a ha hpa
    simp only [delink_prev hprev, delink_hindex, delink_start] at hpa ⊢
    by_cases han : a = (h.entries e).next
    · rw [if_pos han] at hpa
      have hsame := (hl.next e he (fun hz => hl.zero (hz ▸ han ▸ ha.1))).2.2.1
      rw [if_pos ⟨hpa, han ▸ hsame⟩, han]
    · rw [if_neg han] at hpa
      have hstart := hl.first a ha.1 hpa
      rw [if_neg, hstart]
      rintro ⟨hpe, hindex⟩
      rw [hindex, hl.first e he hpe] at hstart
      exact ha.2 hstart.symm
  · intro k hk
    simp only [delink_prev hprev, delink_hindex, delink_start] at hk ⊢
    by_cases hhead : (h.entries e).prev = none ∧ k = (h.entries e).hindex
    · simp only [if_pos hhead, if_true] at hk ⊢
      obtain ⟨hlive, -, hsame, -⟩ := hl.next e he hk
      exact ⟨⟨hlive, hnext⟩, hhead.1, hsame.trans hhead.2.symm⟩
    · rw [if_neg hhead] at hk
      simp only [if_neg hhead]
      obtain ⟨hlive, hnone, hindex⟩ := hl.start k hk
      have hne_e : h.start k ≠ e := by
        intro heq
        rw [heq] at hnone hindex
        exact hhead ⟨hnone, hindex.symm⟩
      have hne_next : h.start k ≠ (h.entries e).next := by
        intro heq
        have := (hl.next e he (heq ▸ hk)).2.1
        rw [← heq, hnone] at this
        cases this
      exact ⟨⟨hlive, hne_e⟩, by rw [if_neg hne_next, hnone], hindex⟩

/-- Put an entry at the head of a list. -/
theorem Linked.link (hl : Linked live h) (he : ¬ live e) (hzero : e ≠ 0) (k pos : ℕ)
    (hpos : ∀ a, live a → (h.entries a).pos < pos) :
    Linked (fun a => live a ∨ a = e) (h.link e k pos) := by
  have hstart_ne : ∀ j, h.start j ≠ e := by
    intro j heq
    exact he (heq ▸ (hl.start j (heq ▸ hzero)).1)
  have hne : ∀ a, live a → a ≠ e := fun a ha heq => he (heq ▸ ha)
  have hself := link_self (hstart_ne k) pos
  have hother : ∀ a, live a → a ≠ h.start k → (h.link e k pos).entries a = h.entries a :=
    fun a ha hak => by rw [link_entries (hne a ha), if_neg hak]
  have hfields : ∀ a, live a → ((h.link e k pos).entries a).next = (h.entries a).next ∧
      ((h.link e k pos).entries a).hindex = (h.entries a).hindex ∧
      ((h.link e k pos).entries a).pos = (h.entries a).pos := by
    intro a ha
    rw [link_entries (hne a ha)]
    split_ifs <;> simp
  refine ⟨?_, ?_, ?_, ?_, ?_⟩
  · rintro (hz | hz)
    · exact hl.zero hz
    · exact hzero hz.symm
  · rintro a (ha | rfl) hnz
    · obtain ⟨hnexta, hindexa, hposa⟩ := hfields a ha
      rw [hnexta] at hnz ⊢
      obtain ⟨hlive, hprev, hindex, hlt⟩ := hl.next a ha hnz
      have hinner : (h.entries a).next ≠ h.start k := by
        intro heq
        have := (hl.start k (heq ▸ hnz)).2.1
        rw [← heq, hprev] at this
        cases this
      rw [hother _ hlive hinner, hindexa, hposa]
      exact ⟨Or.inl hlive, hprev, hindex, hlt⟩
    · -- the former head is the successor of the new one
      rw [hself] at hnz ⊢
      obtain ⟨hlive, -, hindex⟩ := hl.start k hnz
      rw [link_entries (hne _ hlive), if_pos rfl]
      exact ⟨Or.inl hlive, rfl, hindex, hpos _ hlive⟩
  · rintro b a (hb | rfl) hab
    · by_cases hbk : b = h.start k
      · rw [link_entries (hne b hb), if_pos hbk] at hab
        cases hab
        rw [hself]
        exact ⟨Or.inr rfl, hbk.symm⟩
      · rw [hother b hb hbk] at hab
        obtain ⟨hlive, hnexta⟩ := hl.prev b a hb hab
        exact ⟨Or.inl hlive, (hfields a hlive).1.trans hnexta⟩
    · rw [hself] at hab
      cases hab
  · rintro a (ha | rfl) hpa
    · by_cases hak : a = h.start k
      · rw [link_entries (hne a ha), if_pos hak] at hpa
        cases hpa
      · rw [hother a ha hak] at hpa ⊢
        have hfirst := hl.first a ha hpa
        rw [link_start, if_neg, hfirst]
        exact fun hindex => hak (hindex ▸ hfirst.symm)
    · rw [hself, link_start, if_pos rfl]
  · intro j hj
    rw [link_start] at hj ⊢
    by_cases hjk : j = k
    · rw [if_pos hjk, hself]
      exact ⟨Or.inr rfl, rfl, hjk.symm⟩
    · rw [if_neg hjk] at hj ⊢
      obtain ⟨hlive, hnone, hindex⟩ := hl.start j hj
      have hinner : h.start j ≠ h.start k := by
        intro heq
        exact hjk (hindex.symm.trans (heq ▸ (hl.start k (heq ▸ hj)).2.2))
      rw [hother _ hlive hinner]
      exact ⟨Or.inl hlive, hnone, hindex⟩

end Lists

/-! ### Adding to the history -/

/-- The entries in use. -/
def History.Live (h : History) (e : ℕ) : Prop :=
  1 ≤ e ∧ e ≤ historySize ∧ (h.recycle = false → e < h.next)

/-- The history of the input before position `dp`. -/
structure History.Sound (h : History) (dp : ℕ) : Prop where
  next_pos : 1 ≤ h.next
  next_le : h.next ≤ historySize
  linked : Linked h.Live h
  pos_lt : ∀ e, h.Live e → (h.entries e).pos < dp

theorem History.Sound.init (entries : ℕ → PGLZHistEntry) (dp : ℕ) :
    History.Sound { start := fun _ => 0, entries := entries, next := 1, recycle := false } dp := by
  have hdead : ∀ e, ¬ History.Live
      { start := fun _ => 0, entries := entries, next := 1, recycle := false } e := by
    rintro e ⟨hpos, -, hlt⟩
    exact absurd (hlt rfl) (Nat.not_lt.mpr hpos)
  refine ⟨le_rfl, (by decide : 1 ≤ historySize), ⟨hdead 0, ?_, ?_, ?_, ?_⟩,
    fun e he => absurd he (hdead e)⟩
  · exact fun a ha => absurd ha (hdead a)
  · exact fun e _ he => absurd he (hdead e)
  · exact fun e he => absurd he (hdead e)
  · exact fun k hk => absurd rfl hk

namespace History

variable {h : History}

/-- The entry to be used next, out of its list. -/
def freed (h : History) : History := if h.recycle then h.delink h.next else h

@[simp] theorem freed_next : h.freed.next = h.next := by
  unfold freed delink
  split_ifs
  · cases (h.entries h.next).prev <;> rfl
  · rfl

@[simp] theorem freed_recycle : h.freed.recycle = h.recycle := by
  unfold freed delink
  split_ifs
  · cases (h.entries h.next).prev <;> rfl
  · rfl

theorem Sound.freed {dp : ℕ} (hs : h.Sound dp) :
    Linked (fun a => h.Live a ∧ a ≠ h.next) h.freed ∧
      ∀ a, h.Live a → (h.freed.entries a).pos < dp := by
  unfold History.freed
  cases hr : h.recycle with
  | true =>
    have hlive : h.Live h.next := ⟨hs.next_pos, hs.next_le, by simp [hr]⟩
    refine ⟨hs.linked.delink hlive, fun a ha => ?_⟩
    rw [if_pos rfl, delink_pos]
    exact hs.pos_lt a ha
  | false =>
    have hsame : (fun a => h.Live a ∧ a ≠ h.next) = h.Live := by
      funext a
      exact propext ⟨fun ha => ha.1, fun ha => ⟨ha, (ha.2.2 hr).ne⟩⟩
    rw [hsame]
    exact ⟨hs.linked, hs.pos_lt⟩

/-- With the entry used, the next one is up. From the last entry on, all are in use. -/
theorem advance_live (hpos : 1 ≤ h.next) (hle : h.next ≤ historySize) :
    h.advance.Live = fun a => h.Live a ∧ a ≠ h.next ∨ a = h.next := by
  funext a
  unfold advance Live
  cases hr : h.recycle <;> split_ifs <;> grind

@[simp] theorem advance_entries : h.advance.entries = h.entries := by
  unfold advance
  split_ifs <;> rfl

@[simp] theorem advance_start : h.advance.start = h.start := by
  unfold advance
  split_ifs <;> rfl

theorem advance_next : 1 ≤ h.advance.next ∧ h.advance.next ≤ historySize := by
  unfold advance
  split_ifs with hlast
  · exact ⟨le_rfl, (by decide : 1 ≤ historySize)⟩
  · exact ⟨by simp, by simp at hlast ⊢; omega⟩

/-- The character at position `dp` comes into the history. -/
theorem Sound.pglzHistAdd {dp : ℕ} (hs : h.Sound dp) (source : ℕ → UInt8) (e : ℕ)
    (mask : BitVec 32) : (pglzHistAdd h source dp e mask).Sound (dp + 1) := by
  obtain ⟨hfreed, hpos⟩ := hs.freed
  set k := pglzHistIdx source dp e mask with hk
  have hlink := hfreed.link (e := h.next) (fun hl => hl.2 rfl) (Nat.ne_of_gt hs.next_pos)
    k dp (fun a ha => hpos a ha.1)
  have hstart : h.freed.start k ≠ h.next := fun heq =>
    (hfreed.start k (heq ▸ Nat.ne_of_gt hs.next_pos)).1.2 heq
  have hadd : Pglz.pglzHistAdd h source dp e mask = (h.freed.link h.next k dp).advance := by
    rw [← freed_next]
    rfl
  have hnext : (h.freed.link h.next k dp).next = h.next := freed_next
  have hlive : (h.freed.link h.next k dp).Live = h.Live := by
    funext a
    unfold Live
    rw [hnext]
    exact congrArg (fun r => 1 ≤ a ∧ a ≤ historySize ∧ (r = false → a < h.next)) freed_recycle
  have hlive' : (h.freed.link h.next k dp).advance.Live =
      fun a => h.Live a ∧ a ≠ h.next ∨ a = h.next := by
    rw [advance_live (by rw [hnext]; exact hs.next_pos) (by rw [hnext]; exact hs.next_le), hlive,
      hnext]
  obtain ⟨hnext_pos, hnext_le⟩ := advance_next (h := h.freed.link h.next k dp)
  rw [hadd]
  refine ⟨hnext_pos, hnext_le, ?_, ?_⟩
  · rw [hlive']
    obtain ⟨h1, h2, h3, h4, h5⟩ := hlink
    exact ⟨h1, by simpa using h2, by simpa using h3, by simpa using h4, by simpa using h5⟩
  · rw [hlive']
    rintro a (ha | rfl)
    · rw [advance_entries, link_entries ha.2]
      have := hpos a ha.1
      split_ifs <;> exact this.trans (Nat.lt_succ_self dp)
    · rw [advance_entries, link_self hstart]
      exact Nat.lt_succ_self dp

/-- All matched characters come into the history. -/
theorem Sound.addMatched {dp : ℕ} (hs : h.Sound dp) (source : ℕ → UInt8) (slen : ℕ)
    (mask : BitVec 32) (n : ℕ) : (addMatched source slen mask n dp h).Sound (dp + n) := by
  induction n generalizing dp h with
  | zero => exact hs
  | succ n ih =>
    rw [show dp + (n + 1) = dp + 1 + n by omega]
    exact ih (hs.pglzHistAdd source slen mask)

end History

/-! ### Matches -/

/-- The input from position `input` on repeats what is `off` bytes before, for `len` bytes. -/
structure IsMatch (source : ℕ → UInt8) (input e len off : ℕ) : Prop where
  off_pos : 1 ≤ off
  off_lt : off < 0x0fff
  off_le : off ≤ input
  len_le : len ≤ maxMatch
  end_le : input + len ≤ e
  repeats : ∀ i < len, source (input + i) = source (input - off + i)

section Match

variable (source : ℕ → UInt8) {input e : ℕ}

theorem extendMatch_spec (e n ip hp thislen : ℕ) :
    thislen ≤ extendMatch source e n ip hp thislen ∧
      extendMatch source e n ip hp thislen ≤ thislen + n ∧
      ∀ i < extendMatch source e n ip hp thislen - thislen,
        ip + i < e ∧ source (ip + i) = source (hp + i) := by
  induction n generalizing ip hp thislen with
  | zero => simp [extendMatch]
  | succ n ih =>
    rw [extendMatch]
    split_ifs with hsame
    · obtain ⟨hle, hmax, hmatch⟩ := ih (ip + 1) (hp + 1) (thislen + 1)
      refine ⟨by omega, by omega, fun i hi => ?_⟩
      rcases i with _ | i
      · exact hsame
      · have := hmatch i (by omega)
        rw [show ip + (i + 1) = ip + 1 + i by omega, show hp + (i + 1) = hp + 1 + i by omega]
        exact this
    · simp

/-- As many bytes as the length says are the same. -/
theorem matchLength_spec (hp : ℕ) {len : ℕ} (hlen : len ≤ maxMatch) (hend : input + len ≤ e) :
    matchLength source input e hp len ≤ maxMatch ∧
      input + matchLength source input e hp len ≤ e ∧
      ∀ i < matchLength source input e hp len, source (input + i) = source (hp + i) := by
  unfold matchLength
  split_ifs with hlong hsame
  · obtain ⟨hge, hmax, hmatch⟩ := extendMatch_spec source e (maxMatch - len) (input + len)
      (hp + len) len
    set r := extendMatch source e (maxMatch - len) (input + len) (hp + len) len
    refine ⟨by omega, ?_, fun i hi => ?_⟩
    · rcases Nat.eq_or_lt_of_le hge with heq | hlt
      · omega
      · have := (hmatch (r - len - 1) (by omega)).1
        omega
    · rcases Nat.lt_or_ge i len with hlt | hge'
      · exact hsame i hlt
      · have := (hmatch (i - len) (by omega)).2
        rwa [show input + len + (i - len) = input + i by omega,
          show hp + len + (i - len) = hp + i by omega] at this
  · exact ⟨Nat.zero_le _, by omega, fun i hi => absurd hi (Nat.not_lt_zero i)⟩
  · obtain ⟨hge, hmax, hmatch⟩ := extendMatch_spec source e maxMatch input hp 0
    set r := extendMatch source e maxMatch input hp 0
    refine ⟨by omega, ?_, fun i hi => (hmatch i (by omega)).2⟩
    rcases r.eq_zero_or_pos with heq | hpos
    · omega
    · have := (hmatch (r - 1) (by omega)).1
      omega

/-- The best match so far, or none. -/
def BestMatch (input e len off : ℕ) : Prop := len = 0 ∨ IsMatch source input e len off

variable {source}

/-- One history entry: the best match so far, and on to an entry with a smaller position. -/
theorem findStep_spec {h : History} (hs : h.Sound input) (hle : input ≤ e) (goodDrop : ℤ)
    {st : FindState} (hlive : h.Live st.hent) (hbest : BestMatch source input e st.len st.off) :
    Ends (fun best => BestMatch source input e best.1 best.2)
      (fun st' => (BestMatch source input e st'.len st'.off ∧
        (st'.hent ≠ 0 → h.Live st'.hent)) ∧
        (st'.hent ≠ 0 → (h.entries st'.hent).pos < (h.entries st.hent).pos))
      (some (findStep h source input e goodDrop st)) := by
  have hpos := hs.pos_lt _ hlive
  have hlen : st.len ≤ maxMatch ∧ input + st.len ≤ e := by
    rcases hbest with hzero | hmatch
    · rw [hzero]
      exact ⟨Nat.zero_le _, hle⟩
    · exact ⟨hmatch.len_le, hmatch.end_le⟩
  obtain ⟨hmax, hend, hsame⟩ := matchLength_spec source (h.entries st.hent).pos hlen.1 hlen.2
  unfold findStep
  by_cases hoff : input - (h.entries st.hent).pos ≥ 0x0fff
  · rw [if_pos hoff]
    exact hbest
  · rw [if_neg hoff]
    set thislen := matchLength source input e (h.entries st.hent).pos st.len
    have hthis : IsMatch source input e thislen (input - (h.entries st.hent).pos) := by
      refine ⟨by omega, by omega, by omega, hmax, hend, fun i hi => ?_⟩
      rw [hsame i hi, Nat.sub_sub_self hpos.le]
    set best := if thislen > st.len then (thislen, input - (h.entries st.hent).pos)
      else (st.len, st.off) with hdef
    have hbest' : BestMatch source input e best.1 best.2 := by
      rw [hdef]
      split_ifs
      · exact Or.inr hthis
      · exact hbest
    by_cases hgood : (h.entries st.hent).next ≠ 0 ∧ (best.1 : ℤ) ≥ st.goodMatch
    · rw [if_pos hgood]
      exact hbest'
    · rw [if_neg hgood]
      refine ⟨⟨hbest', fun hne => ?_⟩, fun hne => ?_⟩
      · exact (hs.linked.next _ hlive hne).1
      · exact (hs.linked.next _ hlive hne).2.2.2

/-- A lookup ends, and what it finds is a match of at least three bytes. -/
theorem pglzFindMatch_spec (source : ℕ → UInt8) {h : History} (hs : h.Sound input) (hle : input ≤ e)
    (goodMatch goodDrop : ℤ) (mask : BitVec 32) :
    ∃ found, pglzFindMatch h source input e goodMatch goodDrop mask = some found ∧
      ∀ m ∈ found, 3 ≤ m.1 ∧ IsMatch source input e m.1 m.2 := by
  have hstart : h.start (pglzHistIdx source input e mask) ≠ 0 →
      h.Live (h.start (pglzHistIdx source input e mask)) := fun hne => (hs.linked.start _ hne).1
  have hloop : Ends (fun best : ℕ × ℕ => BestMatch source input e best.1 best.2)
      (fun st => (BestMatch source input e st.len st.off ∧ (st.hent ≠ 0 → h.Live st.hent)) ∧
        decide (st.hent ≠ 0) = false)
      (whileLoop (fun st => st.hent ≠ 0) (fun st => some (findStep h source input e goodDrop st))
        (input + 2) ⟨h.start (pglzHistIdx source input e mask), 0, 0, goodMatch⟩) := by
    refine whileLoop_ends _ _
      (fun st => if st.hent = 0 then 0 else (h.entries st.hent).pos + 1) ?_ ⟨Or.inl rfl, hstart⟩ ?_
    · rintro st ⟨hbest, hlive⟩ hcond
      have hne : st.hent ≠ 0 := of_decide_eq_true hcond
      refine (findStep_spec hs hle goodDrop (hlive hne) hbest).imp (fun _ hb => hb) ?_
      rintro _ ⟨hinv, hdown⟩
      refine ⟨hinv, ?_⟩
      split_ifs with hzero
      · omega
      · exact Nat.succ_lt_succ (hdown hzero)
    · dsimp only
      split_ifs with hzero
      · omega
      · have := hs.pos_lt _ (hstart hzero)
        omega
  unfold pglzFindMatch
  have hfound : ∀ len off, BestMatch source input e len off →
      ∀ m ∈ (if len > 2 then some (len, off) else none),
        3 ≤ m.1 ∧ IsMatch source input e m.1 m.2 := by
    intro _ _ hbest m hm
    split_ifs at hm with hlong
    · cases hm
      exact ⟨hlong, hbest.resolve_left (by omega)⟩
    · cases hm
  dsimp only
  match whileLoop _ _ _ _, hloop with
  | some (.error best), hbest => exact ⟨_, rfl, hfound _ _ hbest⟩
  | some (.ok st), hst => exact ⟨_, rfl, hfound _ _ hst.1.1⟩

end Match

/-!
## The compressed format

Compressed data is a sequence of items, literal bytes and tags, in groups of eight.
-/

open List

/-- One item of the compressed data. -/
inductive Item
  | literal (byte : UInt8)
  | tag (len off : ℕ)

namespace Item

/-- The number of bytes that the item stands for. -/
def size : Item → ℕ
  | literal _ => 1
  | tag len _ => len

def bytes : Item → List UInt8
  | literal byte => [byte]
  | tag len off => tagBytes len off

/-- The control bit of an item. -/
def bit : Item → UInt8
  | literal _ => 0
  | tag _ _ => 1

/-- The item stands for what is in the input at a position. -/
def Describes (source : ℕ → UInt8) (slen pos : ℕ) : Item → Prop
  | literal byte => pos < slen ∧ byte = source pos
  | tag len off => 3 ≤ len ∧ IsMatch source pos slen len off

theorem bytes_pos (item : Item) : 0 < item.bytes.length := by
  cases item with
  | literal => exact Nat.one_pos
  | tag =>
    rw [bytes, tagBytes]
    split_ifs <;> simp

theorem bit_toNat_lt (item : Item) : item.bit.toNat < 2 := by
  cases item <;> simp [bit]

theorem Describes.size_pos {source : ℕ → UInt8} {slen pos : ℕ} {item : Item}
    (h : item.Describes source slen pos) : 0 < item.size ∧ pos + item.size ≤ slen := by
  cases item with
  | literal => exact ⟨Nat.one_pos, h.1⟩
  | tag => exact ⟨Nat.zero_lt_of_lt h.1, h.2.end_le⟩

end Item

/-- The items describe the input from one position to another. -/
def Covers (source : ℕ → UInt8) (slen : ℕ) : ℕ → List Item → ℕ → Prop
  | pos, [], stop => pos = stop
  | pos, item :: items, stop =>
    item.Describes source slen pos ∧ Covers source slen (pos + item.size) items stop

theorem Covers.append {source : ℕ → UInt8} {slen pos mid stop : ℕ} {items items' : List Item}
    (h : Covers source slen pos items mid) (h' : Covers source slen mid items' stop) :
    Covers source slen pos (items ++ items') stop := by
  induction items generalizing pos with
  | nil => exact h ▸ h'
  | cons _ _ ih => exact ⟨h.1, ih h.2⟩

/-- The bits of the items, the first one lowest. -/
def ctrlByte : List Item → UInt8
  | [] => 0
  | item :: items => ctrlByte items <<< 1 ||| item.bit

/-- The control bit of the item with a given number in its group. -/
def ctrlBit : ℕ → UInt8
  | 0 => 1
  | n + 1 => ctrlBit n <<< 1

/-- The bytes of the items behind a control byte. -/
def payload (items : List Item) : List UInt8 := items.flatMap Item.bytes

/-- The bytes of all groups of items. -/
def stream (groups : List (List Item)) : List UInt8 :=
  groups.flatMap fun g => ctrlByte g :: payload g

/-- Behind a group that is used up the next one begins. -/
theorem payload_nil_append_stream (g : List Item) (rest : List (List Item)) :
    payload [] ++ stream (g :: rest) = ctrlByte g :: (payload g ++ stream rest) := rfl

@[simp] theorem payload_append (items items' : List Item) :
    payload (items ++ items') = payload items ++ payload items' := flatMap_append

@[simp] theorem stream_append (groups groups' : List (List Item)) :
    stream (groups ++ groups') = stream groups ++ stream groups' := flatMap_append

/-! ### Control bytes -/

/-- One more item sets one more bit, or none. -/
theorem ctrlByte_snoc (items : List Item) (item : Item) :
    ctrlByte (items ++ [item]) =
      ctrlByte items ||| (if item.bit = 0 then 0 else ctrlBit items.length) := by
  induction items with
  | nil =>
    cases item <;> simp [ctrlByte, Item.bit, ctrlBit]
  | cons _ _ ih =>
    rw [cons_append, ctrlByte, ih, UInt8.shiftLeft_or, ctrlByte, length_cons, ctrlBit]
    split_ifs
    · simp
    · rw [UInt8.or_assoc, UInt8.or_comm (ctrlBit _ <<< 1), ← UInt8.or_assoc]

/-- The control bit is gone after eight items, and not before. -/
theorem ctrlBit_eq_zero_iff {n : ℕ} (hn : n ≤ 8) : ctrlBit n &&& 0xff = 0 ↔ n = 8 := by
  interval_cases n <;> decide

theorem ctrlByte_cons_toNat (item : Item) {items : List Item}
    (h : (ctrlByte items).toNat < 128) :
    (ctrlByte (item :: items)).toNat = 2 * (ctrlByte items).toNat + item.bit.toNat := by
  have hor : ∀ c < 128, ∀ b < 2, ((c <<< 1) % 256 ||| b) = 2 * c + b := by decide
  have hbit := item.bit_toNat_lt
  exact hor _ h _ hbit

theorem ctrlByte_toNat_lt (items : List Item) (h : items.length ≤ 8) :
    (ctrlByte items).toNat < 2 ^ items.length := by
  induction items with
  | nil => decide
  | cons item items ih =>
    rw [length_cons] at h ⊢
    have hpow : 2 ^ items.length ≤ 2 ^ 7 := Nat.pow_le_pow_right (by omega) (by omega)
    have hbit := item.bit_toNat_lt
    rw [ctrlByte_cons_toNat item (by omega)]
    omega

theorem ctrlByte_cons_and_one (item : Item) {items : List Item} (h : items.length ≤ 7) :
    ctrlByte (item :: items) &&& 1 = item.bit := by
  have hlt := ctrlByte_toNat_lt items (by omega)
  have hpow : 2 ^ items.length ≤ 2 ^ 7 := Nat.pow_le_pow_right (by omega) h
  have hbit := item.bit_toNat_lt
  apply UInt8.toNat_inj.mp
  rw [UInt8.toNat_and, ctrlByte_cons_toNat item (by omega)]
  change _ &&& 1 = _
  rw [Nat.and_one_is_mod]
  omega

/-- The other bits are those of the other items. -/
theorem ctrlByte_cons_shiftRight (item : Item) {items : List Item} (h : items.length ≤ 7) :
    ctrlByte (item :: items) >>> 1 = ctrlByte items := by
  have hlt := ctrlByte_toNat_lt items (by omega)
  have hpow : 2 ^ items.length ≤ 2 ^ 7 := Nat.pow_le_pow_right (by omega) h
  have hbit := item.bit_toNat_lt
  apply UInt8.toNat_inj.mp
  rw [UInt8.toNat_shiftRight, ctrlByte_cons_toNat item (by omega)]
  change _ >>> 1 = _
  omega

/-! ### The output routines -/

/-- The output has the groups, and an open group whose control byte is not yet written. -/
structure Output.Writing (o : Output) (groups : List (List Item)) (g : List Item) : Prop where
  full : ∀ x ∈ groups, x.length = 8
  le : g.length ≤ 8
  ctrlp : o.ctrlp = some (stream groups).length
  closed : Holds o.dest 0 (stream groups)
  opened : Holds o.dest ((stream groups).length + 1) (payload g)
  bp : o.bp = (stream groups).length + 1 + (payload g).length
  ctrlb : o.ctrlb = ctrlByte g
  ctrl : o.ctrl = ctrlBit g.length

namespace Output

variable {o : Output} {groups : List (List Item)} {g : List Item}

/-- The control byte completes the open group. -/
theorem Writing.writeCtrl (h : o.Writing groups g) :
    Holds o.writeCtrl.dest 0 (stream (groups ++ [g])) ∧
      (stream (groups ++ [g])).length = o.bp ∧ o.writeCtrl.bp = o.bp := by
  have hdest : o.writeCtrl = { o with
      dest := update o.dest (stream groups).length o.ctrlb } := by
    unfold Output.writeCtrl
    rw [h.ctrlp]
  have hgroup : stream [g] = ctrlByte g :: payload g := by simp [stream]
  rw [hdest, stream_append, hgroup, holds_append, Nat.zero_add]
  refine ⟨⟨h.closed.congr fun i _ hi => ?_, ?_, h.opened.congr fun i hi _ => ?_⟩, ?_, rfl⟩
  · exact update_of_ne (by omega) _ _
  · simp [h.ctrlb]
  · exact update_of_ne (by omega) _ _
  · rw [h.bp, length_append, length_cons]
    omega

/-- A new group is opened when the current one is full. -/
theorem Writing.pglzOutCtrl (h : o.Writing groups g) :
    ∃ groups' g', o.pglzOutCtrl.Writing groups' g' ∧ g'.length < 8 ∧
      groups'.flatten ++ g' = groups.flatten ++ g := by
  unfold Output.pglzOutCtrl
  by_cases hfull : g.length = 8
  · rw [if_pos (h.ctrl ▸ (ctrlBit_eq_zero_iff h.le).mpr hfull)]
    obtain ⟨hholds, hlen, -⟩ := h.writeCtrl
    refine ⟨groups ++ [g], [], ⟨?_, by simp, ?_, hholds, trivial, ?_, rfl, rfl⟩, by simp, by simp⟩
    · intro x hx
      rcases mem_append.mp hx with hx | hx
      · exact h.full x hx
      · rw [mem_singleton.mp hx, hfull]
    · rw [hlen]
    · rw [hlen]
      rfl
  · rw [if_neg (h.ctrl ▸ mt (ctrlBit_eq_zero_iff h.le).mp hfull)]
    exact ⟨groups, g, h, Nat.lt_of_le_of_ne h.le hfull, rfl⟩

/-- The first group is opened with the first item. -/
theorem writing_first (hctrl : o.ctrl = 0) (hctrlp : o.ctrlp = none) (hbp : o.bp = 0) :
    o.pglzOutCtrl.Writing [] [] := by
  have hout : o.pglzOutCtrl = { o with ctrlp := some 0, bp := 1, ctrlb := 0, ctrl := 1 } := by
    simp [Output.pglzOutCtrl, Output.writeCtrl, hctrl, hctrlp, hbp]
  rw [hout]
  exact ⟨by simp, by simp, rfl, trivial, trivial, rfl, rfl, rfl⟩

theorem Writing.put (h : o.Writing groups g) (hlt : g.length < 8) (item : Item) :
    Writing
      { o with
        dest := writeBytes o.dest o.bp item.bytes
        bp := o.bp + item.bytes.length
        ctrlb := if item.bit = 0 then o.ctrlb else o.ctrlb ||| o.ctrl
        ctrl := o.ctrl <<< 1 } groups (g ++ [item]) := by
  have hbp := h.bp
  have hitem : payload [item] = item.bytes := by simp [payload]
  refine ⟨h.full, by simpa using Nat.succ_le_of_lt hlt, h.ctrlp,
    h.closed.congr fun i _ hi => ?_, ?_, ?_, ?_, ?_⟩
  · exact writeBytes_of_lt _ (by omega)
  · rw [payload_append, holds_append, hitem, ← hbp]
    refine ⟨h.opened.congr fun i _ hi => writeBytes_of_lt _ (by omega), holds_writeBytes _ _⟩
  · rw [payload_append, hitem, length_append, hbp]
    exact Nat.add_assoc _ _ _
  · rw [ctrlByte_snoc, h.ctrlb, h.ctrl]
    split_ifs <;> simp
  · rw [h.ctrl, length_append]
    rfl

def Encodes (o : Output) (items : List Item) : Prop :=
  items = [] ∧ o.ctrl = 0 ∧ o.ctrlp = none ∧ o.bp = 0 ∨
    ∃ groups g, o.Writing groups g ∧ g ≠ [] ∧ items = groups.flatten ++ g

variable {items : List Item}

theorem Encodes.snoc (h : o.Encodes items) {o' : Output} (item : Item)
    (ho' : o' =
      { o.pglzOutCtrl with
        dest := writeBytes o.pglzOutCtrl.dest o.pglzOutCtrl.bp item.bytes
        bp := o.pglzOutCtrl.bp + item.bytes.length
        ctrlb := if item.bit = 0 then o.pglzOutCtrl.ctrlb
          else o.pglzOutCtrl.ctrlb ||| o.pglzOutCtrl.ctrl
        ctrl := o.pglzOutCtrl.ctrl <<< 1 }) :
    o'.Encodes (items ++ [item]) := by
  obtain ⟨groups, g, hw, hlt, hitems⟩ : ∃ groups g, o.pglzOutCtrl.Writing groups g ∧
      g.length < 8 ∧ groups.flatten ++ g = items := by
    obtain ⟨rfl, hctrl, hctrlp, hbp⟩ | ⟨_, g, hw, -, rfl⟩ := h
    · exact ⟨[], [], writing_first hctrl hctrlp hbp, by simp, rfl⟩
    · exact hw.pglzOutCtrl
  refine Or.inr ⟨groups, g ++ [item], ho' ▸ hw.put hlt item, by simp, ?_⟩
  rw [← hitems, append_assoc]

theorem Encodes.pglzOutLiteral (h : o.Encodes items) (byte : UInt8) :
    (o.pglzOutLiteral byte).Encodes (items ++ [.literal byte]) :=
  h.snoc (.literal byte) rfl

theorem Encodes.pglzOutTag (h : o.Encodes items) (len off : ℕ) :
    (o.pglzOutTag len off).Encodes (items ++ [.tag len off]) :=
  h.snoc (.tag len off) rfl

end Output

end PgCutover.Pglz
