import Mathlib.Tactic.Ring
import PgCutover.Lib.Loops

/-!
# Simple-8b codewords

A codeword packs up to 240 differences between consecutive integers into sixty bits, below a
selector of four bits that gives their number and their width. `simple8bEncode` chooses the mode
while it looks at the differences and then packs them; `simple8bDecode` and `simple8bContains`
unpack them again. What the encoder took from its input is what the decoder returns
(`simple8bEncode_spec`), and the search in a codeword agrees with the decoder
(`simple8bContains_iff`).
-/

namespace PgCutover.IntSet

open Lib List

/-- What ends a call of this module without a result. -/
inductive IntSetError
  | iterationInProgress
  | outOfOrder
  | maximumLevels
  | assertion
  | badPointer
  | outOfFuel
  deriving DecidableEq, Repr

/-! ### Modes -/

/-- How many integers of how many bits a codeword packs. -/
structure Simple8bMode where
  bitsPerInt : ℕ
  numInts : ℕ
  deriving DecidableEq, Repr

/-- `simple8b_modes`. -/
def simple8bModes : List Simple8bMode :=
  [⟨0, 240⟩, ⟨0, 120⟩, ⟨1, 60⟩, ⟨2, 30⟩, ⟨3, 20⟩, ⟨4, 15⟩, ⟨5, 12⟩, ⟨6, 10⟩, ⟨7, 8⟩, ⟨8, 7⟩,
    ⟨10, 6⟩, ⟨12, 5⟩, ⟨15, 4⟩, ⟨20, 3⟩, ⟨30, 2⟩, ⟨60, 1⟩,
    -- the sentinel
    ⟨0, 0⟩]

/-- The mode of a selector. -/
def mode (selector : ℕ) : Simple8bMode := simple8bModes.getD selector ⟨0, 0⟩

/-- Like a codeword of mode 0, but with the unused bits set. -/
def emptyCodeword : UInt64 := 0x0FFFFFFFFFFFFFFF

theorem mode_fits : ∀ selector < 17, (mode selector).bitsPerInt * (mode selector).numInts ≤ 60 := by
  decide

theorem mode_bits_le : ∀ selector < 17, (mode selector).bitsPerInt ≤ 60 := by decide

theorem mode_bits_mono :
    ∀ selector < 15, (mode selector).bitsPerInt ≤ (mode (selector + 1)).bitsPerInt := by decide

theorem mode_numInts_le : ∀ selector < 17, (mode selector).numInts ≤ 240 := by decide

theorem mode_numInts_pos : ∀ selector < 16, 0 < (mode selector).numInts := by decide

/-! ### The encoder -/

/-- The variables of the loop that selects the mode: `accepted` deltas fit, `diff` is the next. -/
structure Selection where
  selector : ℕ
  accepted : ℕ
  diff : UInt64
  lastVal : UInt64

/-- One turn of the loop. It is left with the selected mode, or by a failed assertion. -/
def selectStep (ints : List UInt64) (s : Selection) :
    Option (Except (Except IntSetError Selection) Selection) :=
  if s.diff ≥ 1 <<< UInt64.ofNat (mode s.selector).bitsPerInt then
    -- too large, step up to the next mode, which may have enough deltas already
    if s.accepted ≥ (mode (s.selector + 1)).numInts then
      some (.error (.ok { s with selector := s.selector + 1 }))
    else some (.ok { s with selector := s.selector + 1 })
  else if s.accepted + 1 ≥ (mode s.selector).numInts then
    some (.error (.ok { s with accepted := s.accepted + 1 }))
  else
    match ints[s.accepted + 1]? with
    | none => some (.error (.error .badPointer))
    | some next =>
      if next > s.lastVal then
        some (.ok ⟨s.selector, s.accepted + 1, next - s.lastVal - 1, next⟩)
      else some (.error (.error .assertion))

/-- The deltas shifted into a word, the last one first. -/
def packInts (bits : ℕ) : UInt64 → List UInt64 → UInt64
  | _, [] => 0
  | base, x :: ints => packInts bits x ints <<< UInt64.ofNat bits ||| (x - base - 1)

/-- The codeword of the integers that the selected mode takes, and their number. -/
def encodeSelected (ints : List UInt64) (base : UInt64) (s : Selection) :
    Except IntSetError (UInt64 × ℕ) :=
  let m := mode s.selector
  if m.numInts = 0 then
    if s.accepted = 0 then .ok (emptyCodeword, 0) else .error .assertion
  else
    let codeword := if m.bitsPerInt > 0 then packInts m.bitsPerInt base (ints.take m.numInts) else 0
    .ok (codeword ||| UInt64.ofNat s.selector <<< 60, m.numInts)

/-- `simple8b_encode`. -/
def simple8bEncode (ints : List UInt64) (base : UInt64) : Except IntSetError (UInt64 × ℕ) :=
  match ints[0]? with
  | none => .error .badPointer
  | some first =>
    if first > base then
      match whileLoop (fun _ => true) (selectStep ints) 258 ⟨0, 0, first - base - 1, first⟩ with
      | some (.error (.ok s)) => encodeSelected ints base s
      | some (.error (.error e)) => .error e
      | _ => .error .outOfFuel
    else .error .assertion

/-! ### The decoder -/

/-- The loop of `simple8b_decode`. -/
def decodeInts (bits : ℕ) : ℕ → UInt64 → UInt64 → List UInt64
  | 0, _, _ => []
  | n + 1, codeword, currValue =>
    let diff := codeword &&& (1 <<< UInt64.ofNat bits - 1)
    let currValue := currValue + (1 + diff)
    currValue :: decodeInts bits n (codeword >>> UInt64.ofNat bits) currValue

/-- `simple8b_decode`. -/
def simple8bDecode (codeword base : UInt64) : List UInt64 :=
  let m := mode (codeword >>> 60).toNat
  if codeword = emptyCodeword then [] else decodeInts m.bitsPerInt m.numInts codeword base

/-- The loop of `simple8b_contains`. -/
def containsInts (bits : ℕ) (key : UInt64) : ℕ → UInt64 → UInt64 → Bool
  | 0, _, _ => false
  | n + 1, codeword, currValue =>
    let diff := codeword &&& (1 <<< UInt64.ofNat bits - 1)
    let currValue := currValue + (1 + diff)
    if currValue ≥ key then currValue == key
    else containsInts bits key n (codeword >>> UInt64.ofNat bits) currValue

/-- `simple8b_contains`. -/
def simple8bContains (codeword key base : UInt64) : Bool :=
  let m := mode (codeword >>> 60).toNat
  if codeword = emptyCodeword then false
  else if m.bitsPerInt = 0 then key - base ≤ UInt64.ofNat m.numInts
  else containsInts m.bitsPerInt key m.numInts codeword base

/-! ### Words and shifts -/

section Words

variable {bits : ℕ} {a d : UInt64}

theorem toNat_ofNat_bits (h : bits ≤ 60) : (UInt64.ofNat bits).toNat = bits := by
  rw [UInt64.toNat_ofNat']
  omega

theorem toNat_one_shiftLeft (h : bits ≤ 60) :
    ((1 : UInt64) <<< UInt64.ofNat bits).toNat = 2 ^ bits := by
  have hlt : 2 ^ bits < 2 ^ 64 := Nat.pow_lt_pow_right (by decide) (by omega)
  rw [UInt64.toNat_shiftLeft, toNat_ofNat_bits h, Nat.mod_eq_of_lt (by omega : bits < 64),
    Nat.shiftLeft_eq, UInt64.toNat_one, one_mul, Nat.mod_eq_of_lt hlt]

theorem toNat_shiftRight_bits (h : bits ≤ 60) (a : UInt64) :
    (a >>> UInt64.ofNat bits).toNat = a.toNat / 2 ^ bits := by
  rw [UInt64.toNat_shiftRight, toNat_ofNat_bits h, Nat.mod_eq_of_lt (by omega : bits < 64),
    Nat.shiftRight_eq_div_pow]

theorem toNat_and_mask (h : bits ≤ 60) (a : UInt64) :
    (a &&& (1 <<< UInt64.ofNat bits - 1)).toNat = a.toNat % 2 ^ bits := by
  have hone : (1 : UInt64) ≤ 1 <<< UInt64.ofNat bits := by
    rw [UInt64.le_iff_toNat_le, toNat_one_shiftLeft h]
    exact Nat.one_le_two_pow
  rw [UInt64.toNat_and, UInt64.toNat_sub_of_le _ _ hone, toNat_one_shiftLeft h, UInt64.toNat_one,
    Nat.and_two_pow_sub_one_eq_mod]

/-- A delta is put below the deltas that are packed already. -/
theorem toNat_shiftLeft_or (h : bits ≤ 60) (ha : a.toNat * 2 ^ bits < 2 ^ 64)
    (hd : d.toNat < 2 ^ bits) :
    (a <<< UInt64.ofNat bits ||| d).toNat = a.toNat * 2 ^ bits + d.toNat := by
  rw [UInt64.toNat_or, UInt64.toNat_shiftLeft, toNat_ofNat_bits h,
    Nat.mod_eq_of_lt (by omega : bits < 64), Nat.shiftLeft_eq, Nat.mod_eq_of_lt ha, Nat.mul_comm,
    ← Nat.two_pow_add_eq_or_of_lt hd]

end Words

/-! ### What the encoder takes -/

/-- Every delta of a list of integers has at most `bits` bits. -/
def Fits (bits : ℕ) : UInt64 → List UInt64 → Prop
  | _, [] => True
  | base, x :: ints => (x - base - 1).toNat < 2 ^ bits ∧ Fits bits x ints

variable {base codeword key : UInt64} {ints : List UInt64} {bits n : ℕ}

theorem Fits.mono {bits' : ℕ} (hle : bits ≤ bits')
    (h : Fits bits base ints) : Fits bits' base ints := by
  induction ints generalizing base with
  | nil => trivial
  | cons _ _ ih => exact ⟨h.1.trans_le (Nat.pow_le_pow_right (by decide) hle), ih h.2⟩

theorem Fits.concat {x : UInt64} (h : Fits bits base ints)
    (hx : (x - ints.getLastD base - 1).toNat < 2 ^ bits) : Fits bits base (ints ++ [x]) := by
  induction ints generalizing base with
  | nil => exact ⟨hx, trivial⟩
  | cons _ _ ih => exact ⟨h.1, ih h.2 (by rwa [getLastD_cons] at hx)⟩

theorem Fits.take (h : Fits bits base ints) (n : ℕ) : Fits bits base (ints.take n) := by
  induction ints generalizing base n with
  | nil => simpa using h
  | cons _ _ ih =>
    cases n with
    | zero => trivial
    | succ n => exact ⟨h.1, ih h.2 n⟩

/-- The loop that selects the mode: the accepted deltas fit, the next one is `diff`. -/
structure Selecting (ints : List UInt64) (base : UInt64) (s : Selection) : Prop where
  selector_le : s.selector ≤ 15
  accepted_lt : s.accepted < (mode s.selector).numInts
  fits : Fits (mode s.selector).bitsPerInt base (ints.take s.accepted)
  lastVal : ints[s.accepted]? = some s.lastVal
  diff : s.diff = s.lastVal - (ints.take s.accepted).getLastD base - 1

/-- The mode that the loop is left with. -/
structure Selected (ints : List UInt64) (base : UInt64) (s : Selection) : Prop where
  selector_lt : s.selector < 17
  fits : Fits (mode s.selector).bitsPerInt base (ints.take (mode s.selector).numInts)
  accepted : (mode s.selector).numInts = 0 → s.accepted = 0
  gap : (mode s.selector).numInts = 0 → 2 ^ 60 ≤ (ints.headD base - base - 1).toNat

/-- No assertion fails in the loop, and each turn accepts a delta or moves on to a wider mode. -/
theorem selectStep_ends (hlen : 240 ≤ ints.length)
    (hsorted : ints.Pairwise (· < ·)) {s : Selection} (h : Selecting ints base s) :
    Ends (fun b => ∃ s', b = .ok s' ∧ Selected ints base s')
      (fun s' => Selecting ints base s' ∧
        (16 - s'.selector) + (240 - s'.accepted) < (16 - s.selector) + (240 - s.accepted))
      (selectStep ints s) := by
  have hbits := mode_bits_le s.selector (by have := h.selector_le; omega)
  have hnum := mode_numInts_le s.selector (by have := h.selector_le; omega)
  have hacc := h.accepted_lt
  have hsel := h.selector_le
  rw [selectStep]
  split_ifs with hbig hfull hfull
  · -- the next mode takes no more deltas than were accepted
    have hsentinel : (mode (s.selector + 1)).numInts = 0 → s.selector = 15 ∧ s.accepted = 0 := by
      intro hzero
      rcases Nat.lt_or_ge s.selector 15 with hlt | hge
      · have := mode_numInts_pos (s.selector + 1) (by omega)
        omega
      · have hfifteen : s.selector = 15 := by omega
        rw [hfifteen] at hacc
        exact ⟨hfifteen, Nat.lt_one_iff.mp hacc⟩
    refine ⟨_, rfl, by dsimp only; omega, ?_, fun hzero => (hsentinel hzero).2, fun hzero => ?_⟩
    · dsimp only
      rcases Nat.lt_or_ge s.selector 15 with hlt | hge
      · have := (h.fits.mono (mode_bits_mono s.selector hlt)).take (mode (s.selector + 1)).numInts
        rwa [take_take, Nat.min_eq_left hfull] at this
      · rw [show s.selector = 15 by omega]
        trivial
    · -- the first delta is too large even for the widest mode
      obtain ⟨hfifteen, hnone⟩ := hsentinel hzero
      have hfirst := h.lastVal
      have hdiff := h.diff
      rw [hnone] at hfirst hdiff
      rw [hfifteen, ge_iff_le, UInt64.le_iff_toNat_le, toNat_one_shiftLeft (by decide), hdiff]
        at hbig
      rw [headD_eq_head?_getD, head?_eq_getElem?, hfirst]
      exact hbig
  · have hlt : s.selector < 15 := by
      by_contra hge
      rw [show s.selector = 15 by omega] at hfull
      exact hfull (Nat.zero_le _)
    exact ⟨⟨by dsimp only; omega, by dsimp only; omega,
      h.fits.mono (mode_bits_mono s.selector hlt), h.lastVal, h.diff⟩, by dsimp only; omega⟩
  all_goals
    have hfit : s.diff.toNat < 2 ^ (mode s.selector).bitsPerInt := by
      rw [ge_iff_le, UInt64.le_iff_toNat_le, toNat_one_shiftLeft hbits] at hbig
      omega
    have hnext : ints.take (s.accepted + 1) = ints.take s.accepted ++ [s.lastVal] := by
      rw [take_add_one, h.lastVal, Option.toList_some]
    have htake : Fits (mode s.selector).bitsPerInt base (ints.take (s.accepted + 1)) := by
      rw [hnext]
      exact h.fits.concat (by rwa [← h.diff])
  · refine ⟨_, rfl, by dsimp only; omega, ?_, fun hzero => ?_, fun hzero => ?_⟩
    · rwa [show (mode s.selector).numInts = s.accepted + 1 by omega]
    all_goals
      dsimp only at hzero
      omega
  · have hlt : s.accepted + 1 < ints.length := by omega
    obtain ⟨hlt', hlast⟩ := List.getElem?_eq_some_iff.mp h.lastVal
    have hgt : ints[s.accepted + 1] > s.lastVal := by
      rw [← hlast]
      exact pairwise_iff_getElem.mp hsorted _ _ hlt' hlt (Nat.lt_succ_self _)
    rw [List.getElem?_eq_getElem hlt]
    dsimp only
    rw [if_pos hgt]
    refine ⟨⟨hsel, by dsimp only; omega, htake, List.getElem?_eq_getElem hlt, ?_⟩, ?_⟩
    all_goals dsimp only
    · rw [hnext, getLastD_concat]
    · omega

/-! ### Packing and unpacking -/

theorem shifted_lt {a : ℕ} (ha : a < 2 ^ n) (hbits : n + bits ≤ 60) :
    a * 2 ^ bits < 2 ^ 64 := by
  calc a * 2 ^ bits < 2 ^ n * 2 ^ bits := Nat.mul_lt_mul_of_pos_right ha (Nat.two_pow_pos bits)
    _ = 2 ^ (n + bits) := (Nat.pow_add _ _ _).symm
    _ ≤ 2 ^ 64 := Nat.pow_le_pow_right (by decide) (by omega)

theorem toNat_packInts_lt (h : Fits bits base ints) (hbits : bits * ints.length ≤ 60) :
    (packInts bits base ints).toNat < 2 ^ (bits * ints.length) := by
  induction ints generalizing base with
  | nil => simp [packInts]
  | cons x ints ih =>
    rw [length_cons, Nat.mul_succ] at hbits ⊢
    have hrest := ih h.2 (by omega)
    have hdelta := h.1
    rw [packInts, toNat_shiftLeft_or (by omega) (shifted_lt hrest hbits) hdelta]
    calc (packInts bits x ints).toNat * 2 ^ bits + (x - base - 1).toNat
        < ((packInts bits x ints).toNat + 1) * 2 ^ bits := by rw [Nat.succ_mul]; omega
      _ ≤ 2 ^ (bits * ints.length) * 2 ^ bits := Nat.mul_le_mul_right _ hrest
      _ = 2 ^ (bits * ints.length + bits) := (Nat.pow_add _ _ _).symm

theorem toNat_packInts_cons {x : UInt64}
    (h : Fits bits base (x :: ints)) (hbits : bits * ints.length + bits ≤ 60) :
    (packInts bits base (x :: ints)).toNat =
      (packInts bits x ints).toNat * 2 ^ bits + (x - base - 1).toNat :=
  have hrest := toNat_packInts_lt h.2 (by omega)
  toNat_shiftLeft_or (by omega) (shifted_lt hrest hbits) h.1

/-- Modes without bits for the deltas take only deltas of zero. -/
theorem packInts_zero (h : Fits 0 base ints) :
    packInts 0 base ints = 0 := by
  have := toNat_packInts_lt h (by simp)
  rw [Nat.zero_mul, Nat.pow_zero, Nat.lt_one_iff] at this
  exact UInt64.toNat_inj.mp this

/-- The integers come out of the low bits of a word in the order in which they went in. -/
theorem decodeInts_eq (h : Fits bits base ints) (hbits : bits ≤ 60) (hlen : bits * ints.length ≤ 60)
    (hlow : codeword.toNat % 2 ^ (bits * ints.length) = (packInts bits base ints).toNat) :
    decodeInts bits ints.length codeword base = ints := by
  induction ints generalizing base codeword with
  | nil => rfl
  | cons x ints ih =>
    rw [length_cons, Nat.mul_succ] at hlow hlen
    rw [toNat_packInts_cons h hlen] at hlow
    -- the lowest delta, and the word without it
    have hdelta : codeword.toNat % 2 ^ bits = (x - base - 1).toNat := by
      rw [← Nat.mod_mod_of_dvd _ (Nat.pow_dvd_pow 2 (Nat.le_add_left bits (bits * ints.length))),
        hlow, Nat.mul_add_mod_of_lt h.1]
    have hrest : (codeword >>> UInt64.ofNat bits).toNat % 2 ^ (bits * ints.length) =
        (packInts bits x ints).toNat := by
      rw [toNat_shiftRight_bits hbits, ← Nat.mod_mul_right_div_self, ← Nat.pow_add, Nat.add_comm,
        hlow, Nat.mul_comm, Nat.mul_add_div (Nat.two_pow_pos bits), Nat.div_eq_of_lt h.1,
        Nat.add_zero]
    have hdiff : codeword &&& (1 <<< UInt64.ofNat bits - 1) = x - base - 1 :=
      UInt64.toNat_inj.mp (by rw [toNat_and_mask hbits, hdelta])
    have hx : base + (1 + (x - base - 1)) = x := by grind
    rw [length_cons, decodeInts]
    simp only [hdiff, hx]
    rw [ih h.2 (by omega) hrest]

/-- A codeword of the encoder: the selector, and the deltas below it. -/
theorem toNat_codeword {selector : ℕ} (hsel : selector < 16) {packed : UInt64}
    (hpacked : packed.toNat < 2 ^ 60) :
    (packed ||| UInt64.ofNat selector <<< 60).toNat = selector * 2 ^ 60 + packed.toNat := by
  have hselector : (UInt64.ofNat selector).toNat = selector := toNat_ofNat_bits (by omega)
  have hword : (UInt64.ofNat selector <<< UInt64.ofNat 60 ||| packed).toNat =
      (UInt64.ofNat selector).toNat * 2 ^ 60 + packed.toNat :=
    toNat_shiftLeft_or (Nat.le_refl 60) (by omega) hpacked
  rw [hselector] at hword
  rw [UInt64.or_comm]
  exact hword

/-- The encoder makes the codeword of an accepted mode, and not the empty one. -/
theorem decode_codeword {selector : ℕ} (hsel : selector < 16) {packed : UInt64}
    (hpacked : packed.toNat < 2 ^ 60) (hempty : selector = 0 → packed = 0) :
    simple8bDecode (packed ||| UInt64.ofNat selector <<< 60) base =
      decodeInts (mode selector).bitsPerInt (mode selector).numInts
        (packed ||| UInt64.ofNat selector <<< 60) base := by
  have hcodeword := toNat_codeword hsel hpacked
  have hselector : (packed ||| UInt64.ofNat selector <<< 60) >>> 60 = UInt64.ofNat selector := by
    have hshift := toNat_shiftRight_bits (Nat.le_refl 60) (packed ||| UInt64.ofNat selector <<< 60)
    refine UInt64.toNat_inj.mp (hshift.trans ?_)
    rw [toNat_ofNat_bits (by omega)]
    omega
  have hne : packed ||| UInt64.ofNat selector <<< 60 ≠ emptyCodeword := by
    intro heq
    rw [heq] at hcodeword
    have hmagic : emptyCodeword.toNat = 2 ^ 60 - 1 := by decide
    have hzero : selector = 0 := by omega
    rw [hempty hzero, hzero] at hcodeword
    exact absurd hcodeword (by decide)
  rw [simple8bDecode, if_neg hne, hselector, toNat_ofNat_bits (by omega)]

theorem encodeSelected_spec {s : Selection} (hlen : 240 ≤ ints.length) (h : Selected ints base s) :
    ∃ codeword n, encodeSelected ints base s = .ok (codeword, n) ∧
      simple8bDecode codeword base = ints.take n ∧
      (n = 0 → codeword = emptyCodeword ∧ 2 ^ 60 ≤ (ints.headD base - base - 1).toNat) := by
  have hsel := h.selector_lt
  rw [encodeSelected]
  by_cases hnum : (mode s.selector).numInts = 0
  · rw [if_pos hnum, if_pos (h.accepted hnum)]
    exact ⟨_, _, rfl, rfl, fun _ => ⟨rfl, h.gap hnum⟩⟩
  · have hlt : s.selector < 16 := by
      by_contra hge
      exact hnum (by rw [show s.selector = 16 by omega]; rfl)
    have htake : (ints.take (mode s.selector).numInts).length = (mode s.selector).numInts := by
      rw [length_take]
      have := mode_numInts_le s.selector hsel
      omega
    have hfits := mode_fits s.selector hsel
    have hpack := toNat_packInts_lt h.fits (by rwa [htake])
    rw [htake] at hpack
    have hword : 2 ^ ((mode s.selector).bitsPerInt * (mode s.selector).numInts) ≤ 2 ^ 60 :=
      Nat.pow_le_pow_right (by decide) hfits
    -- without bits for the deltas, the loop that packs them is skipped
    have hcode : (if (mode s.selector).bitsPerInt > 0 then
          packInts (mode s.selector).bitsPerInt base (ints.take (mode s.selector).numInts) else 0) =
        packInts (mode s.selector).bitsPerInt base (ints.take (mode s.selector).numInts) := by
      split_ifs with hbits
      · rfl
      · have hzero : (mode s.selector).bitsPerInt = 0 := by omega
        have hfit := h.fits
        rw [hzero] at hfit ⊢
        exact (packInts_zero hfit).symm
    rw [if_neg hnum, hcode]
    refine ⟨_, _, rfl, ?_, fun h => absurd h hnum⟩
    rw [decode_codeword hlt (hpack.trans_le hword)]
    · conv_lhs => rw [← htake]
      refine decodeInts_eq h.fits (mode_bits_le _ hsel) (by rwa [htake]) ?_
      rw [htake, toNat_codeword hlt (hpack.trans_le hword), ← Nat.sub_add_cancel hfits, Nat.pow_add,
        ← Nat.mul_assoc, Nat.mul_add_mod_of_lt hpack]
    · intro hzero
      have hfit := h.fits
      rw [hzero] at hfit ⊢
      exact packInts_zero hfit

/-- The decoder returns what the encoder took: the integers in front, as many as it says. It takes
none only when the first delta does not fit. -/
theorem simple8bEncode_spec (hlen : 240 ≤ ints.length) (hsorted : (base :: ints).Pairwise (· < ·)) :
    ∃ codeword n, simple8bEncode ints base = .ok (codeword, n) ∧
      simple8bDecode codeword base = ints.take n ∧
      (n = 0 → codeword = emptyCodeword ∧ 2 ^ 60 ≤ (ints.headD base - base - 1).toNat) := by
  obtain ⟨hbase, hints⟩ := pairwise_cons.mp hsorted
  have hpos : 0 < ints.length := by omega
  have hstart : Selecting ints base ⟨0, 0, ints[0] - base - 1, ints[0]⟩ :=
    ⟨Nat.zero_le _, mode_numInts_pos 0 (by decide), trivial, List.getElem?_eq_getElem hpos, rfl⟩
  have hloop : Ends (fun b : Except IntSetError Selection => ∃ s, b = .ok s ∧ Selected ints base s)
      (fun s => Selecting ints base s ∧ true = false)
      (whileLoop (fun _ => true) (selectStep ints) 258 ⟨0, 0, ints[0] - base - 1, ints[0]⟩) :=
    whileLoop_ends (Selecting ints base) _ (fun s => (16 - s.selector) + (240 - s.accepted))
      (fun s hs _ => selectStep_ends hlen hints hs) hstart (by dsimp only; omega)
  rw [simple8bEncode, List.getElem?_eq_getElem hpos]
  dsimp only
  rw [if_pos (hbase _ (getElem_mem hpos))]
  match whileLoop _ _ _ _, hloop with
  | some (.error (.ok s)), ⟨_, rfl, hs⟩ => exact encodeSelected_spec hlen hs
  | some (.ok s), hs => exact absurd hs.2 (by decide)

/-! ### The search in a codeword -/

/-- In increasing values, the search stops at the first one that is not below the key. -/
theorem containsInts_iff (hsorted : (decodeInts bits n codeword base).Pairwise (· < ·)) :
    containsInts bits key n codeword base = true ↔ key ∈ decodeInts bits n codeword base := by
  induction n generalizing codeword base with
  | zero => simp [containsInts, decodeInts]
  | succ n ih =>
    rw [decodeInts] at hsorted ⊢
    rw [containsInts]
    obtain ⟨hfirst, hrest⟩ := pairwise_cons.mp hsorted
    rw [mem_cons]
    split_ifs with hge
    · rw [beq_iff_eq, eq_comm]
      refine ⟨Or.inl, fun h => h.resolve_right fun hmem => ?_⟩
      exact absurd (UInt64.lt_of_lt_of_le (hfirst key hmem) hge) (UInt64.lt_irrefl _)
    · rw [ih hrest]
      exact ⟨Or.inr, fun h => h.resolve_left fun heq => hge (by rw [heq]; exact UInt64.le_refl _)⟩

/-- A mode without bits stands for a run of consecutive integers. -/
theorem mem_decodeInts_zero (hkey : key ≠ base) :
    key ∈ decodeInts 0 n codeword base ↔ (key - base).toNat ≤ n := by
  have hkeylt := key.toNat_lt
  induction n generalizing codeword base with
  | zero =>
    simp only [decodeInts, not_mem_nil, false_iff, UInt64.toNat_sub]
    have hnat : key.toNat ≠ base.toNat := fun h => hkey (UInt64.toNat_inj.mp h)
    have hbaselt := base.toNat_lt
    omega
  | succ n ih =>
    have hmask : codeword &&& (1 <<< UInt64.ofNat 0 - 1) = 0 :=
      UInt64.toNat_inj.mp (by rw [toNat_and_mask (Nat.zero_le 60)]; exact Nat.mod_one _)
    rw [decodeInts]
    simp only [hmask, UInt64.add_zero, mem_cons]
    have hnat : key.toNat ≠ base.toNat := fun h => hkey (UInt64.toNat_inj.mp h)
    have hnext := UInt64.toNat_add base 1
    rw [UInt64.toNat_one] at hnext
    rw [UInt64.toNat_sub]
    have hbaselt := base.toNat_lt
    by_cases heq : key = base + 1
    · have := congrArg UInt64.toNat heq
      simp only [heq, true_or, true_iff]
      omega
    · have hne : key.toNat ≠ (base + 1).toNat := fun h => heq (UInt64.toNat_inj.mp h)
      simp only [heq, false_or]
      refine (ih heq).trans ?_
      rw [UInt64.toNat_sub]
      omega

/-- The search finds the integers of a codeword, and no others but possibly the base. -/
theorem simple8bContains_iff
    (hsorted : (base :: simple8bDecode codeword base).Pairwise (· < ·)) (hkey : key ≠ base) :
    simple8bContains codeword key base = true ↔ key ∈ simple8bDecode codeword base := by
  have hsel : (codeword >>> 60).toNat < 17 := by
    have hshift : (codeword >>> 60).toNat = codeword.toNat / 2 ^ 60 :=
      toNat_shiftRight_bits (Nat.le_refl 60) codeword
    have := codeword.toNat_lt
    omega
  rw [simple8bDecode] at hsorted ⊢
  rw [simple8bContains]
  by_cases hempty : codeword = emptyCodeword
  · simp [hempty]
  · rw [if_neg hempty] at hsorted ⊢
    split_ifs with hbits
    · have hnum := mode_numInts_le _ hsel
      rw [hbits, mem_decodeInts_zero hkey, decide_eq_true_iff, UInt64.le_iff_toNat_le,
        UInt64.toNat_ofNat', Nat.mod_eq_of_lt (by omega)]
    · exact containsInts_iff (pairwise_cons.mp hsorted).2

/-- The three functions agree about a codeword, for every key but the base. -/
theorem simple8b_agree (hlen : 240 ≤ ints.length) (hsorted : (base :: ints).Pairwise (· < ·)) :
    ∃ codeword n, simple8bEncode ints base = .ok (codeword, n) ∧
      simple8bDecode codeword base = ints.take n ∧
      (n = 0 → codeword = emptyCodeword ∧ 2 ^ 60 ≤ (ints.headD base - base - 1).toNat) ∧
      ∀ key ≠ base,
        simple8bContains codeword key base = true ↔ key ∈ simple8bDecode codeword base := by
  obtain ⟨codeword, n, hencode, hdecode, hempty⟩ := simple8bEncode_spec hlen hsorted
  refine ⟨codeword, n, hencode, hdecode, hempty, fun key hkey => simple8bContains_iff ?_ hkey⟩
  rw [hdecode]
  exact hsorted.sublist ((take_sublist n ints).cons_cons base)

/-- Consecutive integers, which are packed without bits. -/
theorem simple8b_agree_consecutive :
    ∃ codeword n, simple8bEncode ((range' 8 240).map UInt64.ofNat) 7 = .ok (codeword, n) ∧
      simple8bDecode codeword 7 = ((range' 8 240).map UInt64.ofNat).take n ∧
      (n = 0 → codeword = emptyCodeword ∧
        2 ^ 60 ≤ (((range' 8 240).map UInt64.ofNat).headD 7 - 7 - 1).toNat) ∧
      ∀ key ≠ 7, simple8bContains codeword key 7 = true ↔ key ∈ simple8bDecode codeword 7 :=
  simple8b_agree (by simp) (by decide +kernel)

/-- A short array is read past its end, and the search in a run of consecutive integers finds the
integer before it. -/
theorem simple8b_preconditions :
    simple8bEncode [1] 0 = .error .badPointer ∧
      simple8bContains 0 7 7 = true ∧ 7 ∉ simple8bDecode 0 7 := by
  decide +kernel

end PgCutover.IntSet
