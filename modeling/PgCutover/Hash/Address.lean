import Mathlib.Data.Nat.Bitwise
import Mathlib.Data.Nat.Log
import Mathlib.Tactic.Ring

/-!
# Block numbers of a hash index

Buckets are allocated in splitpoint phases: one phase for each doubling at first, four for each
doubling later. Overflow pages that are added during a phase come after its buckets, so that the
block of a bucket or of an overflow page depends on the cumulative count of spare pages
before it.
-/

namespace PgCutover.Hash

/-! ### Phases -/

/-- `pg_leftmost_one_pos32`. -/
def leftmostOnePos (word : ℕ) : ℕ := word.log2

/-- `pg_ceil_log2_32`. -/
def ceilLog2 (num : ℕ) : ℕ := if num < 2 then 0 else leftmostOnePos (num - 1) + 1

/-- `pg_nextpower2_32`. -/
def nextPower2 (num : ℕ) : ℕ :=
  if num &&& (num - 1) = 0 then num else 1 <<< (leftmostOnePos num + 1)

/-- The groups of buckets that are allocated at once. -/
def splitpointGroupsWithOnePhase : ℕ := 10

/-- Later groups have `2 ^ splitpointPhaseBits` phases. -/
def splitpointPhaseBits : ℕ := 2

/-- `HASH_SPLITPOINT_PHASE_MASK`. -/
def splitpointPhaseMask : ℕ := (1 <<< splitpointPhaseBits) - 1

/-- The global splitpoint phase in which there are `numBucket` buckets. -/
def spareIndex (numBucket : ℕ) : ℕ :=
  let splitpointGroup := ceilLog2 numBucket
  if splitpointGroup < splitpointGroupsWithOnePhase then splitpointGroup
  else
    splitpointGroupsWithOnePhase +
      ((splitpointGroup - splitpointGroupsWithOnePhase) <<< splitpointPhaseBits) +
      (((numBucket - 1) >>> (splitpointGroup - (splitpointPhaseBits + 1))) &&& splitpointPhaseMask)

/-- The number of buckets allocated until the end of a phase. -/
def totalBuckets (splitpointPhase : ℕ) : ℕ :=
  if splitpointPhase < splitpointGroupsWithOnePhase then 1 <<< splitpointPhase
  else
    let splitpointGroup := splitpointGroupsWithOnePhase +
      ((splitpointPhase - splitpointGroupsWithOnePhase) >>> splitpointPhaseBits)
    let phasesWithinSplitpointGroup :=
      ((splitpointPhase - splitpointGroupsWithOnePhase) &&& splitpointPhaseMask) + 1
    (1 <<< (splitpointGroup - 1)) +
      ((1 <<< (splitpointGroup - 1)) >>> splitpointPhaseBits) * phasesWithinSplitpointGroup

variable {p n : ℕ}

theorem totalBuckets_of_lt (h : p < 10) : totalBuckets p = 2 ^ p := by
  rw [totalBuckets, if_pos (show p < splitpointGroupsWithOnePhase from h), Nat.one_shiftLeft]

theorem land_phaseMask (n : ℕ) : n &&& splitpointPhaseMask = n % 4 :=
  Nat.and_two_pow_sub_one_eq_mod n 2

/-- Four phases share a doubling. -/
theorem totalBuckets_group (a : ℕ) {ph : ℕ} (hph : ph < 4) :
    totalBuckets (10 + 4 * a + ph) = 2 ^ (a + 7) * (ph + 5) := by
  have hpow : 2 ^ (9 + a) = 2 ^ (a + 7) * 2 ^ 2 := by
    rw [← pow_add]
    congr 1
    omega
  rw [totalBuckets, if_neg (show ¬ 10 + 4 * a + ph < splitpointGroupsWithOnePhase from by
    rw [splitpointGroupsWithOnePhase]; omega)]
  simp only [land_phaseMask, splitpointGroupsWithOnePhase, splitpointPhaseBits,
    Nat.shiftRight_eq_div_pow, Nat.one_shiftLeft]
  rw [show 10 + 4 * a + ph - 10 = 4 * a + ph by omega,
    show 10 + (4 * a + ph) / 2 ^ 2 - 1 = 9 + a by omega, show (4 * a + ph) % 4 = ph by omega, hpow,
    Nat.mul_div_cancel _ (Nat.two_pow_pos 2)]
  ring

theorem totalBuckets_group_pred (a : ℕ) {ph : ℕ} (hph : ph < 4) :
    totalBuckets (10 + 4 * a + ph - 1) = 2 ^ (a + 7) * (ph + 4) := by
  rcases Nat.eq_zero_or_pos ph with rfl | hpos
  · rcases Nat.eq_zero_or_pos a with rfl | ha
    · rfl
    · obtain ⟨b, rfl⟩ := Nat.exists_eq_add_of_lt ha
      rw [show 10 + 4 * (0 + b + 1) + 0 - 1 = 10 + 4 * b + 3 by omega,
        totalBuckets_group b (by omega)]
      ring
  · obtain ⟨k, rfl⟩ := Nat.exists_eq_add_of_lt hpos
    rw [show 10 + 4 * a + (0 + k + 1) - 1 = 10 + 4 * a + k by omega,
      totalBuckets_group a (by omega)]
    ring

theorem totalBuckets_strictMono : StrictMono totalBuckets := by
  apply strictMono_nat_of_lt_succ
  intro p
  rcases Nat.lt_or_ge p 9 with hlt | hge
  · rw [totalBuckets_of_lt (by omega), totalBuckets_of_lt (by omega)]
    exact Nat.pow_lt_pow_right (by omega) (Nat.lt_succ_self p)
  · -- from the tenth phase on, split off the group and the phase within it
    obtain ⟨a, ph, hph, heq⟩ : ∃ a ph, ph < 4 ∧ p + 1 = 10 + 4 * a + ph :=
      ⟨(p - 9) / 4, (p - 9) % 4, Nat.mod_lt _ (by omega), by omega⟩
    rw [show p = 10 + 4 * a + ph - 1 by omega, totalBuckets_group_pred a hph,
      show 10 + 4 * a + ph - 1 + 1 = 10 + 4 * a + ph by omega, totalBuckets_group a hph]
    exact Nat.mul_lt_mul_of_pos_left (by omega) (Nat.two_pow_pos _)

/-- The buckets of a phase come after those of the phases before it. -/
theorem spareIndex_spec (hn : 2 ≤ n) :
    1 ≤ spareIndex n ∧ totalBuckets (spareIndex n - 1) < n ∧ n ≤ totalBuckets (spareIndex n) := by
  have hlow : 2 ^ (n - 1).log2 ≤ n - 1 := Nat.log2_self_le (by omega)
  have hhigh : n - 1 < 2 ^ ((n - 1).log2 + 1) := Nat.lt_log2_self
  have hceil : ceilLog2 n = (n - 1).log2 + 1 := by
    rw [ceilLog2, if_neg (by omega), leftmostOnePos]
  rw [spareIndex]
  simp only [hceil]
  split_ifs with hgroup
  · rw [splitpointGroupsWithOnePhase] at hgroup
    rw [totalBuckets_of_lt hgroup, totalBuckets_of_lt (by omega)]
    exact ⟨by omega, by rw [Nat.add_sub_cancel]; omega, by omega⟩
  · rw [splitpointGroupsWithOnePhase] at hgroup ⊢
    obtain ⟨a, ha⟩ : ∃ a, (n - 1).log2 = a + 9 := ⟨(n - 1).log2 - 9, by omega⟩
    rw [ha] at hlow hhigh ⊢
    rw [splitpointPhaseBits, land_phaseMask, Nat.shiftRight_eq_div_pow, Nat.shiftLeft_eq,
      show a + 9 + 1 - (2 + 1) = a + 7 by omega, show a + 9 + 1 - 10 = a by omega,
      Nat.mul_comm a]
    -- the quotient by the size of a phase is one of four
    have hfour : (n - 1) / 2 ^ (a + 7) < 8 := by
      rw [Nat.div_lt_iff_lt_mul (Nat.two_pow_pos _)]
      calc n - 1 < 2 ^ (a + 9 + 1) := hhigh
        _ = 8 * 2 ^ (a + 7) := by ring
    have hfour' : 4 ≤ (n - 1) / 2 ^ (a + 7) := by
      rw [Nat.le_div_iff_mul_le (Nat.two_pow_pos _)]
      calc 4 * 2 ^ (a + 7) = 2 ^ (a + 9) := by ring
        _ ≤ n - 1 := hlow
    have hph : (n - 1) / 2 ^ (a + 7) % 4 < 4 := Nat.mod_lt _ (by omega)
    have hmul := Nat.div_mul_le_self (n - 1) (2 ^ (a + 7))
    have hlt := Nat.lt_mul_div_succ (n - 1) (Nat.two_pow_pos (a + 7))
    rw [totalBuckets_group a hph, totalBuckets_group_pred a hph,
      show (n - 1) / 2 ^ (a + 7) % 4 + 4 = (n - 1) / 2 ^ (a + 7) by omega,
      show (n - 1) / 2 ^ (a + 7) % 4 + 5 = (n - 1) / 2 ^ (a + 7) + 1 by omega]
    rw [Nat.mul_comm] at hmul
    exact ⟨by omega, by omega, by omega⟩

theorem spareIndex_eq_of (hn : 2 ≤ n) (hlow : totalBuckets (p - 1) < n)
    (hhigh : n ≤ totalBuckets p) : spareIndex n = p := by
  obtain ⟨hpos, hlow', hhigh'⟩ := spareIndex_spec hn
  have h1 := totalBuckets_strictMono.lt_iff_lt.1 (hlow.trans_le hhigh')
  have h2 := totalBuckets_strictMono.lt_iff_lt.1 (hlow'.trans_le hhigh)
  omega

theorem spareIndex_totalBuckets (hp : 1 ≤ p) : spareIndex (totalBuckets p) = p := by
  have hlt := totalBuckets_strictMono (show p - 1 < p by omega)
  refine spareIndex_eq_of ?_ hlt le_rfl
  have : totalBuckets 1 ≤ totalBuckets p := totalBuckets_strictMono.monotone hp
  exact this

/-- One more bucket is in the same phase or the next. -/
theorem spareIndex_succ (hn : 2 ≤ n) :
    spareIndex (n + 1) = spareIndex n ∧ n + 1 ≤ totalBuckets (spareIndex n) ∨
      spareIndex (n + 1) = spareIndex n + 1 ∧ n = totalBuckets (spareIndex n) := by
  obtain ⟨hpos, hlow, hhigh⟩ := spareIndex_spec hn
  rcases Nat.eq_or_lt_of_le hhigh with heq | hlt
  · right
    refine ⟨spareIndex_eq_of (by omega) ?_ ?_, heq⟩
    · rw [Nat.add_sub_cancel]
      omega
    · have := totalBuckets_strictMono (Nat.lt_add_one (spareIndex n))
      omega
  · exact Or.inl ⟨spareIndex_eq_of (by omega) (by omega) hlt, hlt⟩

/-- The last of the 98 phases in use (`HASH_MAX_SPLITPOINTS`) ends at `2 ^ 31` buckets, so no count
in use wraps in 32 bits. -/
theorem spareIndex_isLeast (hpos : 1 ≤ n) (hle : n ≤ 2 ^ 31) :
    IsLeast {p | n ≤ totalBuckets p} (spareIndex n) ∧ spareIndex n < 98 ∧
      StrictMonoOn totalBuckets (Set.Iio 98) ∧ ∀ p < 98, totalBuckets p ≤ 2 ^ 31 := by
  have hlast : totalBuckets 97 = 2 ^ 31 := totalBuckets_group 21 (show 3 < 4 by omega)
  have hleast : IsLeast {p | n ≤ totalBuckets p} (spareIndex n) := by
    rcases Nat.eq_or_lt_of_le hpos with rfl | hlt
    · exact ⟨le_refl 1, fun p _ => p.zero_le⟩
    · obtain ⟨-, hlow, hhigh⟩ := spareIndex_spec hlt
      refine ⟨hhigh, fun p hp => ?_⟩
      have := totalBuckets_strictMono.lt_iff_lt.mp (hlow.trans_le hp)
      omega
  refine ⟨hleast, ?_, totalBuckets_strictMono.strictMonoOn _, fun p hp => ?_⟩
  · exact Nat.lt_succ_of_le (hleast.2 (hle.trans_eq hlast.symm))
  · rw [← hlast]
    exact totalBuckets_strictMono.monotone (Nat.le_of_lt_succ hp)

theorem spareIndex_isLeast_last : spareIndex (2 ^ 31) < 98 :=
  (spareIndex_isLeast (by decide) le_rfl).2.1

/-! ### Blocks of buckets and of overflow pages -/

/-- `BUCKET_TO_BLKNO`. -/
def bucketToBlkno (spares : ℕ → ℕ) (bucket : ℕ) : ℕ :=
  bucket + (if bucket ≠ 0 then spares (spareIndex (bucket + 1) - 1) else 0) + 1

/-- `for (i = 1; i < splitnum && ovflbitnum > metap->hashm_spares[i]; i++)`, with `n` values of
`i` left. -/
def findSplit (spares : ℕ → ℕ) (ovflbitnum : ℕ) : ℕ → ℕ → ℕ
  | 0, i => i
  | n + 1, i => if ovflbitnum > spares i then findSplit spares ovflbitnum n (i + 1) else i

/-- The block of the overflow page with a bit number. -/
def bitnoToBlkno (spares : ℕ → ℕ) (ovflpoint ovflbitnum : ℕ) : ℕ :=
  totalBuckets (findSplit spares (ovflbitnum + 1) (ovflpoint - 1) 1) + (ovflbitnum + 1)

/-- `for (i = 1; i <= splitnum; i++)`, with `n` values of `i` left. -/
def bitnoLoop (spares : ℕ → ℕ) (ovflblkno : ℕ) : ℕ → ℕ → Option ℕ
  | 0, _ => none
  | n + 1, i =>
    if ovflblkno ≤ totalBuckets i then none
    else if ovflblkno - totalBuckets i > spares (i - 1) ∧
        ovflblkno - totalBuckets i ≤ spares i then
      some (ovflblkno - totalBuckets i - 1)
    else bitnoLoop spares ovflblkno n (i + 1)

/-- The bit number of the overflow page at a block. -/
def ovflblknoToBitno (spares : ℕ → ℕ) (ovflpoint ovflblkno : ℕ) : Except String ℕ :=
  match bitnoLoop spares ovflblkno ovflpoint 1 with
  | some bitnum => .ok bitnum
  | none => .error s!"invalid overflow block number {ovflblkno}"

/-- The spare pages counted so far: cumulative, and none before the first phase. -/
structure Cumulative (spares : ℕ → ℕ) (ovflpoint : ℕ) : Prop where
  zero : spares 0 = 0
  mono : ∀ i j, i ≤ j → j ≤ ovflpoint → spares i ≤ spares j
  pos : 1 ≤ ovflpoint

/-- The `k`-th overflow page, counted from one, was added in phase `i`. -/
structure AddedIn (spares : ℕ → ℕ) (ovflpoint k i : ℕ) : Prop where
  pos : 1 ≤ i
  le : i ≤ ovflpoint
  after : spares (i - 1) < k
  upto : k ≤ spares i

section Overflow

variable {spares : ℕ → ℕ} {ovflpoint : ℕ}

variable {bit i k : ℕ}

theorem findSplit_spec (n start : ℕ) (h : spares (start - 1) < k) :
    start ≤ findSplit spares k n start ∧ findSplit spares k n start ≤ start + n ∧
      spares (findSplit spares k n start - 1) < k ∧
      (findSplit spares k n start < start + n → k ≤ spares (findSplit spares k n start)) := by
  induction n generalizing start with
  | zero => exact ⟨le_rfl, le_rfl, h, fun hlt => absurd hlt (Nat.lt_irrefl _)⟩
  | succ n ih =>
    rw [findSplit]
    split_ifs with hgt
    · obtain ⟨hle, hle', hafter, hupto⟩ := ih (start + 1) hgt
      exact ⟨by omega, by omega, hafter, fun hlt => hupto (by omega)⟩
    · exact ⟨le_rfl, Nat.le_add_right _ _, h, fun _ => Nat.le_of_not_lt hgt⟩

section

variable (h : Cumulative spares ovflpoint)
include h

/-- The pages that exist were each added in some phase. -/
theorem Cumulative.exists_addedIn
    (hbit : bit < spares ovflpoint) : ∃ i, AddedIn spares ovflpoint (bit + 1) i ∧
      bitnoToBlkno spares ovflpoint bit = totalBuckets i + (bit + 1) := by
  have hzero := h.zero
  have hpos := h.pos
  obtain ⟨hle, hle', hafter, hupto⟩ :=
    @findSplit_spec spares (bit + 1) (ovflpoint - 1) 1 (by rw [hzero]; omega)
  refine ⟨_, ⟨hle, by omega, hafter, ?_⟩, rfl⟩
  rcases Nat.lt_or_ge (findSplit spares (bit + 1) (ovflpoint - 1) 1) ovflpoint with hlt | hge
  · exact hupto (by omega)
  · rw [show findSplit spares (bit + 1) (ovflpoint - 1) 1 = ovflpoint by omega]
    exact hbit

/-- A page was added in one phase. -/
theorem AddedIn.unique {j : ℕ}
    (hi : AddedIn spares ovflpoint k i) (hj : AddedIn spares ovflpoint k j) : i = j := by
  have key : ∀ {i j}, AddedIn spares ovflpoint k i → AddedIn spares ovflpoint k j → ¬ i < j := by
    intro i j hi hj hlt
    have := h.mono i (j - 1) (by omega) (by have := hj.le; omega)
    have := hi.upto
    have := hj.after
    omega
  exact Nat.le_antisymm (Nat.le_of_not_lt (key hj hi)) (Nat.le_of_not_lt (key hi hj))

theorem AddedIn.bitnoToBlkno
    (hi : AddedIn spares ovflpoint (bit + 1) i) :
    bitnoToBlkno spares ovflpoint bit = totalBuckets i + (bit + 1) := by
  have hbit : bit < spares ovflpoint := hi.upto.trans (h.mono i ovflpoint hi.le le_rfl)
  obtain ⟨j, hj, heq⟩ := h.exists_addedIn hbit
  rw [heq, hj.unique h hi]

/-- The search passes over the phases before the one of the page. -/
theorem bitnoLoop_of_addedIn
    (hi : AddedIn spares ovflpoint k i) {n start : ℕ} (hstart : start ≤ i) (hend : i < start + n)
    (hpos : 1 ≤ start) : bitnoLoop spares (totalBuckets i + k) n start = some (k - 1) := by
  have hk : 0 < k := Nat.zero_lt_of_lt hi.after
  induction n generalizing start with
  | zero => omega
  | succ n ih =>
    have hT : totalBuckets start ≤ totalBuckets i := totalBuckets_strictMono.monotone hstart
    rw [bitnoLoop, if_neg (by omega)]
    rcases Nat.eq_or_lt_of_le hstart with rfl | hlt
    · rw [Nat.add_sub_cancel_left, if_pos ⟨hi.after, hi.upto⟩]
    · -- a page of an earlier phase would be counted by the phase before `i`
      have hmono := h.mono start (i - 1) (by omega) (by have := hi.le; omega)
      have hafter := hi.after
      rw [if_neg (fun hand => by have := hand.2; omega)]
      exact ih (by omega) (by omega) (by omega)

theorem AddedIn.ovflblknoToBitno
    (hi : AddedIn spares ovflpoint (bit + 1) i) :
    ovflblknoToBitno spares ovflpoint (totalBuckets i + (bit + 1)) = .ok bit := by
  have hle := hi.le
  rw [Hash.ovflblknoToBitno, bitnoLoop_of_addedIn h hi hi.pos (by omega) le_rfl]
  rfl

omit h in
theorem addedIn_of_bitnoLoop {blk n start : ℕ} (hpos : 1 ≤ start)
    (hend : start + n = ovflpoint + 1) (hbit : bitnoLoop spares blk n start = some bit) :
    ∃ i, AddedIn spares ovflpoint (bit + 1) i ∧ blk = totalBuckets i + (bit + 1) := by
  induction n generalizing start with
  | zero => exact absurd hbit (by simp [bitnoLoop])
  | succ n ih =>
    rw [bitnoLoop] at hbit
    split_ifs at hbit with hle hin
    · rw [Option.some.injEq] at hbit
      exact ⟨start, ⟨hpos, by omega, by omega, by omega⟩, by omega⟩
    · exact ih (by omega) (by omega) hbit

/-- The two conversions are inverse to each other on the pages that exist. -/
theorem Cumulative.ovflblknoToBitno_eq_ok_iff {blk : ℕ} :
    ovflblknoToBitno spares ovflpoint blk = .ok bit ↔
      bit < spares ovflpoint ∧ bitnoToBlkno spares ovflpoint bit = blk := by
  constructor
  · intro hok
    rw [Hash.ovflblknoToBitno] at hok
    cases hloop : bitnoLoop spares blk ovflpoint 1 with
    | none => rw [hloop] at hok; exact absurd hok (by simp)
    | some b =>
      rw [hloop] at hok
      obtain rfl : b = bit := Except.ok.inj hok
      obtain ⟨i, hi, rfl⟩ := addedIn_of_bitnoLoop le_rfl (Nat.add_comm 1 _) hloop
      exact ⟨hi.upto.trans (h.mono i ovflpoint hi.le le_rfl), hi.bitnoToBlkno h⟩
  · rintro ⟨hbit, rfl⟩
    obtain ⟨i, hi, heq⟩ := h.exists_addedIn hbit
    rw [heq, hi.ovflblknoToBitno h]

theorem Cumulative.bitnoToBlkno_inj {bit' : ℕ}
    (hbit : bit < spares ovflpoint) (hbit' : bit' < spares ovflpoint)
    (heq : bitnoToBlkno spares ovflpoint bit = bitnoToBlkno spares ovflpoint bit') :
    bit = bit' := by
  have h1 := h.ovflblknoToBitno_eq_ok_iff.2 ⟨hbit, rfl⟩
  have h2 := h.ovflblknoToBitno_eq_ok_iff.2 ⟨hbit', rfl⟩
  rw [heq, h2] at h1
  exact (Except.ok.inj h1).symm

end

end Overflow

/-! ### No two pages share a block -/

section Blocks

variable {spares : ℕ → ℕ} {ovflpoint : ℕ}

/-- The phase of a bucket other than the first, and the blocks of the phase. -/
theorem bucketToBlkno_spec {bucket : ℕ}
    (hpos : bucket ≠ 0) (hlt : bucket < totalBuckets ovflpoint) :
    ∃ p, 1 ≤ p ∧ p ≤ ovflpoint ∧ totalBuckets (p - 1) ≤ bucket ∧ bucket < totalBuckets p ∧
      bucketToBlkno spares bucket = bucket + spares (p - 1) + 1 := by
  obtain ⟨hp, hlow, hhigh⟩ := spareIndex_spec (show 2 ≤ bucket + 1 by omega)
  refine ⟨spareIndex (bucket + 1), hp, ?_, by omega, by omega, ?_⟩
  · have : totalBuckets (spareIndex (bucket + 1) - 1) < totalBuckets ovflpoint := by omega
    have := totalBuckets_strictMono.lt_iff_lt.1 this
    omega
  · rw [bucketToBlkno, if_pos hpos]

theorem Cumulative.bucketToBlkno_lt (h : Cumulative spares ovflpoint) {b c : ℕ} (hbc : b < c)
    (hc : c < totalBuckets ovflpoint) : bucketToBlkno spares b < bucketToBlkno spares c := by
  obtain ⟨p, hp, hple, hlow, hhigh, heq⟩ := @bucketToBlkno_spec spares _ _ (show c ≠ 0 by omega) hc
  by_cases hb : b = 0
  · rw [heq, bucketToBlkno, if_neg (not_not.2 hb)]
    omega
  · obtain ⟨q, hq, hqle, hqlow, hqhigh, hbeq⟩ :=
      @bucketToBlkno_spec spares ovflpoint _ hb (by omega)
    have hqp : q - 1 ≤ p - 1 := by
      have : totalBuckets (q - 1) < totalBuckets p := by omega
      have := totalBuckets_strictMono.lt_iff_lt.1 this
      omega
    have := h.mono (q - 1) (p - 1) hqp (by omega)
    omega

/-- Buckets and overflow pages are on different blocks. -/
theorem Cumulative.bucketToBlkno_ne_bitnoToBlkno (h : Cumulative spares ovflpoint)
    {bucket bit : ℕ} (hbucket : bucket < totalBuckets ovflpoint) (hbit : bit < spares ovflpoint) :
    bucketToBlkno spares bucket ≠ bitnoToBlkno spares ovflpoint bit := by
  obtain ⟨i, hi, heq⟩ := h.exists_addedIn hbit
  have hile := hi.le
  have hafter := hi.after
  have hupto := hi.upto
  by_cases hzero : bucket = 0
  · have : totalBuckets 1 ≤ totalBuckets i := totalBuckets_strictMono.monotone hi.pos
    have hone : totalBuckets 1 = 2 := rfl
    rw [bucketToBlkno, if_neg (not_not.2 hzero)]
    omega
  · obtain ⟨p, hp, hple, hlow, hhigh, hbeq⟩ := @bucketToBlkno_spec spares _ _ hzero hbucket
    -- the pages added in a phase lie between its buckets and those of the next
    rcases Nat.lt_or_ge i p with hlt | hge
    · have := h.mono i (p - 1) (by omega) (by omega)
      have : totalBuckets i ≤ totalBuckets (p - 1) :=
        totalBuckets_strictMono.monotone (by omega)
      omega
    · have := h.mono (p - 1) (i - 1) (by omega) (by omega)
      have : totalBuckets p ≤ totalBuckets i := totalBuckets_strictMono.monotone hge
      omega

end Blocks

end PgCutover.Hash
