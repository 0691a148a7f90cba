import PgCutover.Hash.GrowthInv
import PgCutover.Lib.Runs

/-!
# Runs of a growing hash index

Over any history of splits and of overflow pages added and freed, every page has a block of its
own.
-/

namespace PgCutover.Hash

open Function List

open Lib (run EveryStep)

/-! ### Pages keep their blocks -/

/-- The counts grow so that every page stays in the phase it was added in. -/
structure Keeps (spares : ℕ → ℕ) (ovflpoint : ℕ) (spares' : ℕ → ℕ) (ovflpoint' : ℕ) : Prop where
  cumulative : Cumulative spares' ovflpoint'
  addedIn : ∀ {k i}, AddedIn spares ovflpoint k i → AddedIn spares' ovflpoint' k i

section Keeps

variable {spares spares' : ℕ → ℕ} {ovflpoint ovflpoint' : ℕ}

theorem Keeps.bitnoToBlkno (hk : Keeps spares ovflpoint spares' ovflpoint')
    (h : Cumulative spares ovflpoint) {bit : ℕ} (hbit : bit < spares ovflpoint) :
    bitnoToBlkno spares' ovflpoint' bit = bitnoToBlkno spares ovflpoint bit := by
  obtain ⟨i, hi, heq⟩ := h.exists_addedIn hbit
  rw [heq, (hk.addedIn hi).bitnoToBlkno hk.cumulative]

/-- The count of the current phase or of the next one is set, to no less than before. -/
theorem keeps_update (h : Cumulative spares ovflpoint) {p n : ℕ} (hp : ovflpoint ≤ p)
    (hnext : p ≤ ovflpoint + 1) (hn : spares ovflpoint ≤ n) :
    Keeps spares ovflpoint (update spares p n) p := by
  have hpos := h.pos
  have hbelow : ∀ i < p, update spares p n i = spares i := fun i hi => update_of_ne (by omega) _ _
  have hle : ∀ i ≤ ovflpoint, spares i ≤ n := fun i hi => (h.mono i ovflpoint hi le_rfl).trans hn
  refine ⟨⟨by rw [hbelow 0 (by omega), h.zero], ?_, by omega⟩, ?_⟩
  · intro i j hij hj
    rcases Nat.eq_or_lt_of_le hj with rfl | hj
    · rw [update_self]
      rcases Nat.eq_or_lt_of_le hij with rfl | hi
      · rw [update_self]
      · rw [hbelow i hi]
        exact hle i (by omega)
    · rw [hbelow i (by omega), hbelow j hj]
      exact h.mono i j hij (by omega)
  · rintro k i ⟨hipos, hi, hafter, hupto⟩
    refine ⟨hipos, hi.trans hp, by rwa [hbelow (i - 1) (by omega)], ?_⟩
    rcases Nat.eq_or_lt_of_le (hi.trans hp) with rfl | hlt
    · rw [update_self]
      exact hupto.trans (hle i hi)
    · rwa [hbelow i hlt]

/-- Pages are added to the current phase. -/
theorem keeps_extend (h : Cumulative spares ovflpoint) {n : ℕ} (hn : spares ovflpoint ≤ n) :
    Keeps spares ovflpoint (update spares ovflpoint n) ovflpoint :=
  keeps_update h le_rfl (Nat.le_succ _) hn

/-- A page that does not exist yet gets the block it will have. -/
theorem bitnoToBlkno_extend (h : Cumulative spares ovflpoint) {n bit : ℕ}
    (hbit : spares ovflpoint ≤ bit) (hn : bit < n) :
    bitnoToBlkno (update spares ovflpoint n) ovflpoint bit =
      bitnoToBlkno spares ovflpoint bit := by
  have hpos := h.pos
  have hzero := h.zero
  have hnew : AddedIn (update spares ovflpoint n) ovflpoint (bit + 1) ovflpoint := by
    refine ⟨hpos, le_rfl, ?_, by rw [update_self]; exact hn⟩
    rw [update_of_ne (by omega)]
    have := h.mono (ovflpoint - 1) ovflpoint (by omega) le_rfl
    omega
  rw [hnew.bitnoToBlkno (keeps_extend h (by omega)).cumulative, Hash.bitnoToBlkno]
  -- the search for the phase runs to its end
  obtain ⟨hle, hle', -, hupto⟩ :=
    @findSplit_spec spares (bit + 1) (ovflpoint - 1) 1 (by rw [hzero]; omega)
  have hend : findSplit spares (bit + 1) (ovflpoint - 1) 1 = ovflpoint := by
    have := h.mono (findSplit spares (bit + 1) (ovflpoint - 1) 1) ovflpoint (by omega) le_rfl
    omega
  rw [hend]

end Keeps

/-! ### The invariant -/

namespace HashIndex

/-- Where everything is. -/
structure Inv (s : HashIndex) : Prop where
  masks : s.metap.Masks
  maxbucket_pos : 1 ≤ s.metap.maxbucket
  maxbucket_le : s.metap.maxbucket ≤ 0x7FFFFFFE
  cumulative : Cumulative s.metap.spares s.metap.ovflpoint
  phase : s.metap.ovflpoint = spareIndex (s.metap.maxbucket + 1)
  bmshift_ge : 3 ≤ s.metap.bmshift
  nmaps_pos : 1 ≤ s.metap.nmaps
  nmaps_le : s.metap.nmaps ≤ 1024
  spare_gt : (s.metap.nmaps - 1) * s.metap.bmpgszBit < s.metap.sparePages
  spare_le : s.metap.sparePages ≤ s.metap.nmaps * s.metap.bmpgszBit
  mapp_eq : ∀ j < s.metap.nmaps, s.metap.mapp j = s.metap.bitnoToBlkno (j * s.metap.bmpgszBit)
  map_inUse : ∀ j < s.metap.nmaps, s.inUse (j * s.metap.bmpgszBit) = true
  ahead_inUse : ∀ b, s.metap.sparePages ≤ b → b < s.metap.nmaps * s.metap.bmpgszBit →
    s.inUse b = true
  overflow_bit : ∀ blk ∈ s.overflow, ∃ bit < s.metap.sparePages,
    s.metap.bitnoToBlkno bit = blk ∧ bit % s.metap.bmpgszBit ≠ 0 ∧ s.inUse bit = true
  nodup : s.overflow.Nodup

variable {s : HashIndex}

theorem Inv.map_lt (h : Inv s) {j : ℕ} (hj : j < s.metap.nmaps) :
    j * s.metap.bmpgszBit < s.metap.sparePages :=
  (Nat.mul_le_mul_right _ (Nat.le_sub_one_of_lt hj)).trans_lt h.spare_gt

theorem Inv.bmpgszBit_ge (h : Inv s) : 8 ≤ s.metap.bmpgszBit :=
  Nat.pow_le_pow_right Nat.two_pos h.bmshift_ge

/-- A split keeps the pages where they are. -/
theorem Inv.addBucket (h : Inv s) (hlt : s.metap.maxbucket < 0x7FFFFFFE) :
    Inv { s with metap := s.metap.addBucket } := by
  have hpos := h.maxbucket_pos
  have hsucc := spareIndex_succ (show 2 ≤ s.metap.maxbucket + 1 by omega)
  rw [← h.phase] at hsucc
  -- in a new phase or not, the counts keep every page in its phase
  obtain ⟨hkeeps, hphase, hspare⟩ :
      Keeps s.metap.spares s.metap.ovflpoint s.metap.addBucket.spares s.metap.addBucket.ovflpoint ∧
        s.metap.addBucket.ovflpoint = spareIndex (s.metap.maxbucket + 1 + 1) ∧
        s.metap.addBucket.sparePages = s.metap.sparePages := by
    simp only [HashMeta.addBucket, HashMeta.sparePages]
    rcases hsucc with ⟨heq, -⟩ | ⟨heq, -⟩
    · rw [heq, if_neg (Nat.lt_irrefl _), if_neg (Nat.lt_irrefl _)]
      exact ⟨⟨h.cumulative, id⟩, rfl, rfl⟩
    · rw [heq, if_pos (Nat.lt_succ_self _), if_pos (Nat.lt_succ_self _), update_self]
      exact ⟨keeps_update h.cumulative (Nat.le_succ _) le_rfl le_rfl, rfl, rfl⟩
  have hbit : ∀ bit < s.metap.sparePages,
      s.metap.addBucket.bitnoToBlkno bit = s.metap.bitnoToBlkno bit :=
    fun bit hbit => hkeeps.bitnoToBlkno h.cumulative hbit
  refine { h with
    masks := h.masks.addBucket, maxbucket_pos := Nat.le_succ_of_le hpos, maxbucket_le := hlt
    cumulative := hkeeps.cumulative, phase := hphase, spare_gt := hspare ▸ h.spare_gt
    spare_le := hspare ▸ h.spare_le, mapp_eq := ?_, ahead_inUse := hspare ▸ h.ahead_inUse
    overflow_bit := ?_ }
  · intro j hj
    exact (h.mapp_eq j hj).trans (hbit _ (h.map_lt hj)).symm
  · intro blk hblk
    obtain ⟨bit, hlt, heq, hrest⟩ := h.overflow_bit blk hblk
    exact ⟨bit, hspare ▸ hlt, (hbit bit hlt).trans heq, hrest⟩

theorem Inv.expand (h : Inv s) (env : ExpandEnv) :
    Inv { s with metap := s.metap.expandTable env } := by
  rw [HashMeta.expandTable]
  split_ifs with _ hmax
  all_goals first | exact h | exact h.addBucket (Nat.lt_of_not_le hmax)

/-! ### Overflow pages -/

variable {bit blk : ℕ}

theorem findFree_spec (hfind : s.findFree = some bit) :
    bit < s.metap.sparePages ∧ s.inUse bit = false := by
  have hmem := mem_range'_1.1 (mem_of_find?_eq_some hfind)
  have hfree := List.find?_some hfind
  exact ⟨by omega, by simpa using hfree⟩

/-- The bits of the bitmap pages themselves are never free. -/
theorem Inv.mod_ne_zero (h : Inv s) (hlt : bit < s.metap.sparePages)
    (hfree : s.inUse bit = false) : bit % s.metap.bmpgszBit ≠ 0 := by
  intro hmod
  have hmul : bit / s.metap.bmpgszBit * s.metap.bmpgszBit = bit :=
    Nat.div_mul_cancel (Nat.dvd_of_mod_eq_zero hmod)
  have hj : bit / s.metap.bmpgszBit < s.metap.nmaps := by
    rw [Nat.div_lt_iff_lt_mul (by have := h.bmpgszBit_ge; omega)]
    exact hlt.trans_le h.spare_le
  have hin := h.map_inUse _ hj
  rw [hmul, hfree] at hin
  exact absurd hin (by simp)

theorem Inv.bitnoToBlkno_inj (h : Inv s) {bit' : ℕ} (hbit : bit < s.metap.sparePages)
    (hbit' : bit' < s.metap.sparePages)
    (heq : s.metap.bitnoToBlkno bit = s.metap.bitnoToBlkno bit') : bit = bit' :=
  h.cumulative.bitnoToBlkno_inj hbit hbit' heq

/-- A free page is used again. -/
theorem Inv.reuse (h : Inv s) (hfind : s.findFree = some bit) :
    Inv { metap := { s.metap with firstfree := bit + 1 }
          inUse := update s.inUse bit true
          overflow := s.metap.bitnoToBlkno bit :: s.overflow } := by
  obtain ⟨hlt, hfree⟩ := findFree_spec hfind
  have hin : ∀ b, s.inUse b = true → update s.inUse bit true b = true := by
    intro b _
    by_cases hbit : b = bit
    · rw [hbit, update_self]
    · rwa [update_of_ne hbit]
  refine { h with
    map_inUse := fun j hj => hin _ (h.map_inUse j hj)
    ahead_inUse := fun b hb hb' => hin _ (h.ahead_inUse b hb hb')
    overflow_bit := ?_, nodup := ?_ }
  · intro blk hblk
    rcases mem_cons.1 hblk with rfl | hblk
    · exact ⟨bit, hlt, rfl, h.mod_ne_zero hlt hfree, update_self _ _ _⟩
    · obtain ⟨b, hb, heq, hmod, huse⟩ := h.overflow_bit blk hblk
      exact ⟨b, hb, heq, hmod, hin b huse⟩
  · refine nodup_cons.2 ⟨fun hmem => ?_, h.nodup⟩
    -- a page of a chain is in use
    obtain ⟨b, hb, heq, -, huse⟩ := h.overflow_bit _ hmem
    rw [h.bitnoToBlkno_inj hb hlt heq, hfree] at huse
    exact absurd huse (by simp)

/-- What both ways of extending the index have in common: the counts grow, and the pages that
exist stay where they are. -/
theorem Inv.extend_overflow (h : Inv s) (newmap : Bool) (hblk : blk ∈ s.overflow) :
    ∃ bit < s.metap.sparePages, (s.extend newmap).metap.bitnoToBlkno bit = blk ∧
      bit % s.metap.bmpgszBit ≠ 0 ∧ (s.extend newmap).inUse bit = true := by
  obtain ⟨bit, hlt, heq, hmod, huse⟩ := h.overflow_bit blk hblk
  refine ⟨bit, hlt, ?_, hmod, ?_⟩
  · rw [← heq]
    refine (keeps_extend h.cumulative ?_).bitnoToBlkno h.cumulative hlt
    cases newmap
    · simp
    · simp only [if_true]
      omega
  · simp only [extend, huse, Bool.true_or]

theorem Inv.extend_notMem (h : Inv s) (hle : s.metap.sparePages ≤ bit) :
    s.metap.bitnoToBlkno bit ∉ s.overflow := by
  intro hmem
  obtain ⟨b, hb, heq, -⟩ := h.overflow_bit _ hmem
  have hkeeps := keeps_extend h.cumulative (n := bit + 1) (Nat.le_succ_of_le hle)
  have hb' := hkeeps.bitnoToBlkno h.cumulative hb
  have hbit' := bitnoToBlkno_extend h.cumulative hle (Nat.lt_succ_self bit)
  have heq' : b = bit := hkeeps.cumulative.bitnoToBlkno_inj (by rw [update_self]; omega)
    (by rw [update_self]; omega) (hb'.trans (heq.trans hbit'.symm))
  omega

theorem Inv.extend_false (h : Inv s) (hroom : s.metap.sparePages % s.metap.bmpgszBit ≠ 0) :
    Inv (s.extend false) := by
  have hlt : s.metap.sparePages < s.metap.nmaps * s.metap.bmpgszBit := by
    refine Nat.lt_of_le_of_ne h.spare_le fun heq => hroom ?_
    rw [heq, Nat.mul_mod_left]
  have hkeeps := keeps_extend h.cumulative (n := s.metap.sparePages + 1) (Nat.le_succ _)
  have hspare : (s.extend false).metap.sparePages = s.metap.sparePages + 1 :=
    update_self _ _ _
  have hin : ∀ b, (s.extend false).inUse b = s.inUse b := fun b => by simp [extend]
  refine { h with
    cumulative := hkeeps.cumulative, spare_gt := ?_, spare_le := ?_, mapp_eq := ?_
    map_inUse := ?_, ahead_inUse := ?_, overflow_bit := ?_, nodup := ?_ }
  · rw [hspare]
    exact Nat.lt_succ_of_lt h.spare_gt
  · rw [hspare]
    exact hlt
  · intro j hj
    exact (h.mapp_eq j hj).trans (hkeeps.bitnoToBlkno h.cumulative (h.map_lt hj)).symm
  · intro j hj
    rw [hin]
    exact h.map_inUse j hj
  · intro b hb hb'
    rw [hin]
    exact h.ahead_inUse b (by omega) hb'
  · intro _ hblk
    rw [hspare]
    rcases mem_cons.1 hblk with rfl | hblk
    · refine ⟨s.metap.sparePages, Nat.lt_succ_self _, ?_, hroom, ?_⟩
      · exact bitnoToBlkno_extend h.cumulative le_rfl (Nat.lt_succ_self _)
      · rw [hin]
        exact h.ahead_inUse _ le_rfl hlt
    · obtain ⟨bit, hbit, hrest⟩ := h.extend_overflow false hblk
      exact ⟨bit, Nat.lt_succ_of_lt hbit, hrest⟩
  · exact nodup_cons.2 ⟨h.extend_notMem le_rfl, h.nodup⟩

theorem Inv.extend_true (h : Inv s) (hfull : s.metap.sparePages % s.metap.bmpgszBit = 0)
    (hmaps : s.metap.nmaps < 1024) : Inv (s.extend true) := by
  have hB := h.bmpgszBit_ge
  -- the bitmap pages are full, so that the next page is a bitmap page
  have heq : s.metap.sparePages = s.metap.nmaps * s.metap.bmpgszBit := by
    obtain ⟨q, hq⟩ := Nat.dvd_of_mod_eq_zero hfull
    rw [Nat.mul_comm] at hq
    have h1 : q ≤ s.metap.nmaps := by
      have := h.spare_le
      rw [hq] at this
      exact Nat.le_of_mul_le_mul_right this (by omega)
    have h2 : s.metap.nmaps - 1 < q := by
      have := h.spare_gt
      rw [hq] at this
      exact Nat.lt_of_mul_lt_mul_right this
    rw [hq, show q = s.metap.nmaps by omega]
  have hsucc : (s.metap.nmaps + 1) * s.metap.bmpgszBit =
      s.metap.nmaps * s.metap.bmpgszBit + s.metap.bmpgszBit := Nat.succ_mul _ _
  have hkeeps := keeps_extend h.cumulative (n := s.metap.sparePages + 1 + 1)
    (Nat.le_add_right _ 2)
  have hspare : (s.extend true).metap.sparePages = s.metap.sparePages + 1 + 1 :=
    update_self _ _ _
  have hdiv : ∀ b, s.metap.sparePages ≤ b → b < (s.metap.nmaps + 1) * s.metap.bmpgszBit →
      (s.extend true).inUse b = true := by
    intro b hb hb'
    have : b / s.metap.bmpgszBit = s.metap.nmaps :=
      Nat.div_eq_of_lt_le (by omega) hb'
    simp [extend, this]
  have hin : ∀ b, s.inUse b = true → (s.extend true).inUse b = true :=
    fun b hb => by simp [extend, hb]
  refine { h with
    cumulative := hkeeps.cumulative, nmaps_pos := Nat.succ_pos _, nmaps_le := hmaps
    spare_gt := ?_, spare_le := ?_, mapp_eq := ?_, map_inUse := ?_, ahead_inUse := ?_
    overflow_bit := ?_, nodup := ?_ }
  · have hgoal : s.metap.nmaps * s.metap.bmpgszBit < s.metap.sparePages + 1 + 1 := by omega
    rw [hspare]
    exact hgoal
  · have hgoal : s.metap.sparePages + 1 + 1 ≤ (s.metap.nmaps + 1) * s.metap.bmpgszBit := by omega
    rw [hspare]
    exact hgoal
  · intro j hj
    rcases Nat.eq_or_lt_of_le (Nat.le_of_lt_succ hj) with rfl | hj
    · have hmap : (s.extend true).metap.mapp s.metap.nmaps =
          s.metap.bitnoToBlkno s.metap.sparePages := update_self _ _ _
      rw [hmap]
      refine Eq.trans ?_ (congrArg _ heq)
      exact (bitnoToBlkno_extend h.cumulative le_rfl (Nat.lt_add_of_pos_right Nat.two_pos)).symm
    · have hmap : (s.extend true).metap.mapp j = s.metap.mapp j :=
        update_of_ne (Nat.ne_of_lt hj) _ _
      rw [hmap, h.mapp_eq j hj]
      exact (hkeeps.bitnoToBlkno h.cumulative (h.map_lt hj)).symm
  · intro j hj
    rcases Nat.eq_or_lt_of_le (Nat.le_of_lt_succ hj) with rfl | hj
    · exact hdiv _ heq.le (by rw [hsucc]; exact Nat.lt_add_of_pos_right (by omega))
    · exact hin _ (h.map_inUse j hj)
  · intro b hb hb'
    rw [hspare] at hb
    exact hdiv b (Nat.le_of_succ_le (Nat.le_of_succ_le hb)) hb'
  · intro _ hblk
    rw [hspare]
    rcases mem_cons.1 hblk with rfl | hblk
    · refine ⟨s.metap.sparePages + 1, Nat.lt_succ_self _, ?_, ?_, ?_⟩
      · exact bitnoToBlkno_extend h.cumulative (Nat.le_succ _) (Nat.lt_succ_self _)
      · have hgoal : (s.metap.sparePages + 1) % s.metap.bmpgszBit ≠ 0 := by
          rw [heq, Nat.mul_add_mod_self_right, Nat.mod_eq_of_lt (by omega)]
          exact Nat.one_ne_zero
        exact hgoal
      · exact hdiv _ (Nat.le_succ _) (by omega)
    · obtain ⟨bit, hbit, hrest⟩ := h.extend_overflow true hblk
      exact ⟨bit, Nat.lt_succ_of_lt (Nat.lt_succ_of_lt hbit), hrest⟩
  · exact nodup_cons.2 ⟨h.extend_notMem (Nat.le_succ _), h.nodup⟩

/-- The last page that exists has the last bit of its bitmap page. -/
theorem last_bit_iff {n B : ℕ} (hB : 2 ≤ B) (hn : 0 < n) : (n - 1) % B = B - 1 ↔ n % B = 0 := by
  have hlt := Nat.mod_lt (n - 1) (show 0 < B by omega)
  have hsucc : n % B = ((n - 1) % B + 1) % B := by
    rw [Nat.mod_add_mod, Nat.sub_add_cancel hn]
  rw [hsucc]
  constructor
  · intro hlast
    rw [hlast, Nat.sub_add_cancel (by omega), Nat.mod_self]
  · intro hzero
    by_contra hne
    rw [Nat.mod_eq_of_lt (by omega)] at hzero
    omega

theorem Inv.addOvfl (h : Inv s) {blcksz : ℕ} {relname : String} {s' : HashIndex}
    (hok : s.addOvflPage blcksz relname = .ok s') : Inv s' := by
  have hB := h.bmpgszBit_ge
  have hiff := last_bit_iff (n := s.metap.sparePages) (show 2 ≤ s.metap.bmpgszBit by omega)
    (Nat.zero_lt_of_lt h.spare_gt)
  rw [addOvflPage] at hok
  cases hfind : s.findFree with rw [hfind] at hok
  | some =>
    cases hok
    exact h.reuse hfind
  | none =>
    dsimp only at hok
    split_ifs at hok with hlast hmaps
    all_goals cases hok
    · refine h.extend_true (hiff.1 hlast) ?_
      exact (Nat.lt_of_not_le hmaps).trans_le (Nat.min_le_right _ _)
    · exact h.extend_false fun hzero => hlast (hiff.2 hzero)

theorem Inv.freeOvfl (h : Inv s) {ovflblkno : ℕ} (hmem : ovflblkno ∈ s.overflow) {s' : HashIndex}
    (hok : s.freeOvflPage ovflblkno = .ok s') : Inv s' := by
  obtain ⟨bit, hlt, heq, hmod, -⟩ := h.overflow_bit _ hmem
  have hbit : s.metap.ovflblknoToBitno ovflblkno = .ok bit :=
    h.cumulative.ovflblknoToBitno_eq_ok_iff.2 ⟨hlt, heq⟩
  simp only [freeOvflPage, hbit, bind, Except.bind] at hok
  split_ifs at hok
  cases hok
  have hne : ∀ b, b ≠ bit → update s.inUse bit false b = s.inUse b :=
    fun b hb => update_of_ne hb _ _
  refine { h with
    map_inUse := ?_, ahead_inUse := ?_, overflow_bit := ?_, nodup := h.nodup.erase _ }
  · intro j hj
    -- the bit of a bitmap page is a multiple of the page size
    refine (hne _ fun hj => hmod ?_).trans (h.map_inUse j hj)
    rw [← hj]
    exact Nat.mul_mod_left _ _
  · intro b hb hb'
    exact (hne b fun hbit => by subst hbit; exact absurd hlt (Nat.not_lt_of_le hb)).trans
      (h.ahead_inUse b hb hb')
  · intro blk hblk
    obtain ⟨hblkne, hblk⟩ := h.nodup.mem_erase_iff.1 hblk
    obtain ⟨b, hb, hbeq, hbmod, hbuse⟩ := h.overflow_bit blk hblk
    refine ⟨b, hb, hbeq, hbmod, (hne b ?_).trans hbuse⟩
    rintro rfl
    exact hblkne (hbeq.symm.trans heq)

/-! ### Runs -/

/-- The one spare page of the initial index is the first bitmap page. -/
theorem cumulative_init {p : ℕ} (hp : 1 ≤ p) :
    Cumulative (update (fun _ => 0) p 1) p := by
  have hempty : Cumulative (fun _ => 0) p := ⟨rfl, fun _ _ _ _ => le_rfl, hp⟩
  exact (keeps_extend hempty (Nat.zero_le 1)).cumulative

variable (blcksz : ℕ)

theorem masks_init (dnumbuckets : ℚ) (hpos : 2 ≤ initialBuckets dnumbuckets) :
    (initMetabuffer blcksz dnumbuckets).Masks := by
  obtain ⟨k, heq, hlow, hhigh⟩ :=
    nextPower2_spec (show 2 ≤ initialBuckets dnumbuckets + 1 by omega)
  refine ⟨k, ?_, ?_, ?_, ?_⟩
  · simp only [initMetabuffer, heq]
  · simp only [initMetabuffer, heq, Nat.shiftRight_eq_div_pow, pow_succ]
    omega
  all_goals
    simp only [initMetabuffer]
    omega

theorem inv_init (dnumbuckets : ℚ) : Inv (init blcksz dnumbuckets) := by
  obtain ⟨p, hp, heq, hle⟩ := initialBuckets_spec dnumbuckets
  have htwo : 2 ≤ initialBuckets dnumbuckets := by
    have : totalBuckets 1 ≤ totalBuckets p := totalBuckets_strictMono.monotone hp
    rw [heq]
    exact this
  have hspare : spareIndex (initialBuckets dnumbuckets) = p := by
    rw [heq, spareIndex_totalBuckets hp]
  have hcum := cumulative_init hp
  have hpages : (initMetabuffer blcksz dnumbuckets).sparePages = 1 := by
    simp [HashMeta.sparePages, initMetabuffer]
  refine ⟨masks_init blcksz dnumbuckets htwo, Nat.le_sub_one_of_lt htwo, ?_, ?_, ?_,
    Nat.le_add_left _ _, le_rfl, show 1 ≤ 1024 by omega, ?_, ?_, ?_, fun _ _ => rfl,
    fun _ _ _ => rfl, ?_,
    nodup_nil⟩
  · simp only [init, initMetabuffer]
    omega
  · simp only [init, initMetabuffer, hspare]
    exact hcum
  · simp only [init, initMetabuffer]
    rw [Nat.sub_add_cancel (by omega)]
  · have hgoal : (1 - 1) * (initMetabuffer blcksz dnumbuckets).bmpgszBit < 1 := by simp
    rw [init, hpages]
    exact hgoal
  · rw [init, hpages]
    exact Nat.le_mul_of_pos_right 1 (Nat.two_pow_pos _)
  · intro j hj
    obtain rfl : j = 0 := Nat.lt_one_iff.1 hj
    have hadded : AddedIn (update (fun _ => 0) p 1) p (0 + 1) p :=
      ⟨hp, le_rfl, by rw [update_of_ne (by omega)]; exact Nat.zero_lt_one,
        by rw [update_self]⟩
    rw [Nat.zero_mul]
    simp only [init, initMetabuffer, HashMeta.bitnoToBlkno, hspare]
    rw [hadded.bitnoToBlkno hcum, update_self, heq]
  · exact nofun

theorem Inv.step (h : Inv s) (blcksz : ℕ) (relname : String) (op : Op) :
    Inv (step blcksz relname s op) := by
  cases op with rw [HashIndex.step]
  | expand env => exact h.expand env
  | addOvfl =>
    cases hok : s.addOvflPage blcksz relname with
    | ok => exact h.addOvfl hok
    | error => exact h
  | freeOvfl ovflblkno =>
    split_ifs with hmem
    · cases hok : s.freeOvflPage ovflblkno with
      | ok => exact h.freeOvfl hmem hok
      | error => exact h
    · exact h

theorem inv_run (relname : String) (dnumbuckets : ℚ) (ops : List Op) :
    Inv (run (step blcksz relname) (init blcksz dnumbuckets) ops) :=
  Lib.run_invariant (P := fun _ _ => True) (fun _ op h _ => Inv.step h blcksz relname op)
    (inv_init blcksz dnumbuckets) (Lib.everyStep_of_forall fun _ _ => trivial)

theorem bmshift_step (relname : String) (s : HashIndex) (op : Op) :
    (step blcksz relname s op).metap.bmshift = s.metap.bmshift := by
  cases op with
  | expand =>
    simp only [step, HashMeta.expandTable]
    split_ifs <;> rfl
  | addOvfl =>
    simp only [step, addOvflPage]
    cases s.findFree with
    | some => rfl
    | none =>
      split_ifs <;> rfl
  | freeOvfl ovflblkno =>
    simp only [step, freeOvflPage]
    cases s.metap.ovflblknoToBitno ovflblkno with simp only [bind, Except.bind]
    | ok bit | error e =>
      split_ifs <;> rfl

/-- The block numbers of all pages but the meta page. -/
def pages (s : HashIndex) : List ℕ :=
  (List.range (s.metap.maxbucket + 1)).map s.metap.bucketToBlkno ++ s.overflow ++
    (List.range s.metap.nmaps).map s.metap.mapp

theorem Inv.bucket_lt (h : Inv s) {bucket : ℕ} (hb : bucket ≤ s.metap.maxbucket) :
    bucket < totalBuckets s.metap.ovflpoint := by
  have hpos := h.maxbucket_pos
  have hle := (spareIndex_spec (show 2 ≤ s.metap.maxbucket + 1 by omega)).2.2
  rw [← h.phase] at hle
  omega

theorem Inv.mem_pages (h : Inv s) (hblk : blk ∈ s.pages) :
    (∃ bucket ≤ s.metap.maxbucket, blk = s.metap.bucketToBlkno bucket) ∨
      ∃ bit < s.metap.sparePages, blk = s.metap.bitnoToBlkno bit := by
  rw [pages, mem_append, mem_append] at hblk
  rcases hblk with (hblk | hblk) | hblk
  · obtain ⟨bucket, hb, rfl⟩ := mem_map.1 hblk
    exact Or.inl ⟨bucket, Nat.le_of_lt_succ (mem_range.1 hb), rfl⟩
  · obtain ⟨bit, hlt, heq, -⟩ := h.overflow_bit blk hblk
    exact Or.inr ⟨bit, hlt, heq.symm⟩
  · obtain ⟨j, hj, rfl⟩ := mem_map.1 hblk
    have hj := mem_range.1 hj
    exact Or.inr ⟨_, h.map_lt hj, h.mapp_eq j hj⟩

theorem Inv.nodup_buckets (h : Inv s) :
    ((List.range (s.metap.maxbucket + 1)).map s.metap.bucketToBlkno).Nodup := by
  apply List.Nodup.map_on _ nodup_range
  intro b hb c hc heq
  have hb := h.bucket_lt (Nat.le_of_lt_succ (mem_range.1 hb))
  have hc := h.bucket_lt (Nat.le_of_lt_succ (mem_range.1 hc))
  by_contra hne
  rcases Nat.lt_or_gt_of_ne hne with hlt | hlt
  · exact absurd heq (Nat.ne_of_lt (h.cumulative.bucketToBlkno_lt hlt hc))
  · exact absurd heq.symm (Nat.ne_of_lt (h.cumulative.bucketToBlkno_lt hlt hb))

theorem Inv.nodup_maps (h : Inv s) : ((List.range s.metap.nmaps).map s.metap.mapp).Nodup := by
  apply List.Nodup.map_on _ nodup_range
  intro i hi j hj heq
  have hi := mem_range.1 hi
  have hj := mem_range.1 hj
  rw [h.mapp_eq i hi, h.mapp_eq j hj] at heq
  have := h.bitnoToBlkno_inj (h.map_lt hi) (h.map_lt hj) heq
  exact Nat.eq_of_mul_eq_mul_right (by have := h.bmpgszBit_ge; omega) this

/-- All pages are on different blocks, and none is on that of the meta page. -/
theorem Inv.nodup_pages (h : Inv s) : (0 :: s.pages).Nodup := by
  rw [nodup_cons]
  constructor
  · intro hzero
    rcases h.mem_pages hzero with ⟨bucket, -, heq⟩ | ⟨bit, -, heq⟩ <;> cases heq
  · have hspare : ∀ bucket ≤ s.metap.maxbucket, ∀ bit < s.metap.sparePages,
        s.metap.bucketToBlkno bucket ≠ s.metap.bitnoToBlkno bit := fun bucket hb bit hbit =>
      h.cumulative.bucketToBlkno_ne_bitnoToBlkno (h.bucket_lt hb) hbit
    rw [pages, append_assoc, nodup_append, nodup_append]
    refine ⟨h.nodup_buckets, ⟨h.nodup, h.nodup_maps, ?_⟩, ?_⟩
    · -- the bit numbers of bitmap pages are multiples of the size of a bitmap page
      intro blk hblk _ hblk' heq
      obtain ⟨_, hbit, hbiteq, hmod, -⟩ := h.overflow_bit blk hblk
      obtain ⟨j, hj, rfl⟩ := mem_map.1 hblk'
      have hj := mem_range.1 hj
      rw [h.mapp_eq j hj, ← hbiteq] at heq
      rw [h.bitnoToBlkno_inj hbit (h.map_lt hj) heq] at hmod
      exact hmod (Nat.mul_mod_left _ _)
    · intro _ hblk blk' hblk' heq
      obtain ⟨bucket, hb, rfl⟩ := mem_map.1 hblk
      have hb := Nat.le_of_lt_succ (mem_range.1 hb)
      rcases mem_append.1 hblk' with hblk' | hblk'
      · obtain ⟨bit, hbit, hbiteq, -⟩ := h.overflow_bit blk' hblk'
        exact hspare bucket hb bit hbit (heq.trans hbiteq.symm)
      · obtain ⟨j, hj, rfl⟩ := mem_map.1 hblk'
        have hj := mem_range.1 hj
        exact hspare bucket hb _ (h.map_lt hj) (heq.trans (h.mapp_eq j hj))

/-- Block numbers stay below the largest one. -/
theorem Inv.page_lt (h : Inv s) (hshift : s.metap.bmshift ≤ 17) (hblk : blk ∈ s.pages) :
    blk < 2 ^ 32 - 1 := by
  have hmaxpos := h.maxbucket_pos
  have hmaxle := h.maxbucket_le
  -- at most half of the block numbers are buckets
  have hT : totalBuckets s.metap.ovflpoint ≤ 2 ^ 31 := by
    obtain ⟨-, hlow, -⟩ := spareIndex_spec (show 2 ≤ s.metap.maxbucket + 1 by omega)
    rw [← h.phase] at hlow
    have h97 : totalBuckets 97 = 2 ^ 31 := rfl
    have hlt : totalBuckets (s.metap.ovflpoint - 1) < totalBuckets 97 := by omega
    have := totalBuckets_strictMono.lt_iff_lt.1 hlt
    rw [← h97]
    exact totalBuckets_strictMono.monotone (by omega)
  have hspare : s.metap.sparePages ≤ 2 ^ 27 := by
    calc s.metap.sparePages ≤ s.metap.nmaps * s.metap.bmpgszBit := h.spare_le
      _ ≤ 1024 * 2 ^ 17 := Nat.mul_le_mul h.nmaps_le (Nat.pow_le_pow_right Nat.two_pos hshift)
  rcases h.mem_pages hblk with ⟨bucket, hb, rfl⟩ | ⟨_, hbit, rfl⟩
  · by_cases hzero : bucket = 0
    · subst hzero
      have hone : s.metap.bucketToBlkno 0 = 1 := rfl
      omega
    · obtain ⟨p, hp, hple, -, hlt, heq⟩ :=
        @bucketToBlkno_spec s.metap.spares s.metap.ovflpoint bucket hzero (h.bucket_lt hb)
      have hmono := h.cumulative.mono (p - 1) s.metap.ovflpoint (by omega) le_rfl
      have hspare' : s.metap.spares s.metap.ovflpoint ≤ 2 ^ 27 := hspare
      rw [HashMeta.bucketToBlkno]
      omega
  · obtain ⟨i, hi, heq⟩ := h.cumulative.exists_addedIn hbit
    have : totalBuckets i ≤ totalBuckets s.metap.ovflpoint :=
      totalBuckets_strictMono.monotone hi.le
    rw [HashMeta.bitnoToBlkno]
    omega

theorem bmshift_run (relname : String) (dnumbuckets : ℚ) (ops : List Op)
    (hblcksz : blcksz ≤ 32768) :
    (run (step blcksz relname) (init blcksz dnumbuckets) ops).metap.bmshift ≤ 17 := by
  refine @Lib.run_invariant HashIndex Op (step blcksz relname) (fun _ _ => True)
    (fun s => s.metap.bmshift ≤ 17) _ ops ?_ ?_ ?_
  · intro s _ h _
    rw [bmshift_step]
    exact h
  · have hlog : (hashGetMaxBitmapSize blcksz).log2 < 15 := by
      by_cases hzero : hashGetMaxBitmapSize blcksz = 0
      · rw [hzero]
        decide
      · rw [Nat.log2_lt hzero, hashGetMaxBitmapSize]
        omega
    have hinit : (init blcksz dnumbuckets).metap.bmshift =
        (hashGetMaxBitmapSize blcksz).log2 + 3 := rfl
    omega
  · exact Lib.everyStep_of_forall fun _ _ => trivial

theorem expandTable_cases (env : ExpandEnv) (m : HashMeta) :
    m.expandTable env = m ∨ m.expandTable env = m.addBucket := by
  rw [HashMeta.expandTable]
  split_ifs
  all_goals first | exact Or.inl rfl | exact Or.inr rfl

/-- In every history of splits and of overflow and bitmap pages added and freed, all pages are on
different blocks, the two conversions between bit numbers and blocks are inverse to each other,
every key has a bucket that exists, and a split moves keys from the old bucket to the new one
only. No block number overflows. -/
theorem hashIndex_growth (blcksz : ℕ) (relname : String) (dnumbuckets : ℚ) (ops : List Op) :
    let s := run (step blcksz relname) (init blcksz dnumbuckets) ops
    (0 :: s.pages).Nodup ∧
      (∀ blk ∈ s.overflow, ∃ bit, s.metap.ovflblknoToBitno blk = .ok bit ∧
        s.metap.bitnoToBlkno bit = blk) ∧
      (∀ bit < s.metap.sparePages,
        s.metap.ovflblknoToBitno (s.metap.bitnoToBlkno bit) = .ok bit) ∧
      (∀ key, s.metap.hashkey2bucket key ≤ s.metap.maxbucket) ∧
      (∀ env key, (s.metap.expandTable env).hashkey2bucket key ≠ s.metap.hashkey2bucket key →
        s.metap.hashkey2bucket key = s.metap.oldBucket ∧
          (s.metap.expandTable env).hashkey2bucket key = s.metap.maxbucket + 1) ∧
      (blcksz ≤ 32768 → ∀ blk ∈ s.pages, blk < 2 ^ 32 - 1) := by
  intro s
  have h : Inv s := inv_run blcksz relname dnumbuckets ops
  refine ⟨h.nodup_pages, ?_, ?_, h.masks.hashkey2bucket_le, ?_, ?_⟩
  · intro blk hblk
    obtain ⟨bit, hlt, heq, -⟩ := h.overflow_bit blk hblk
    exact ⟨bit, h.cumulative.ovflblknoToBitno_eq_ok_iff.2 ⟨hlt, heq⟩, heq⟩
  · exact fun bit hbit => h.cumulative.ovflblknoToBitno_eq_ok_iff.2 ⟨hbit, rfl⟩
  · intro env key hne
    rcases expandTable_cases env s.metap with heq | heq
    · rw [heq] at hne
      exact absurd rfl hne
    · rw [heq] at hne ⊢
      exact h.masks.hashkey2bucket_addBucket key hne
  · exact fun hblcksz blk hblk =>
      h.page_lt (bmshift_run blcksz relname dnumbuckets ops hblcksz) hblk

end HashIndex

end PgCutover.Hash
