import PgCutover.Hash.Growth

/-!
# Pages of a growing hash index never collide

The masks always split the hash keys among the buckets that exist, and a split moves keys from one
bucket only.
-/

namespace PgCutover.Hash

open Function

/-! ### Masks -/

/-- The masks are those of the current doubling. -/
def HashMeta.Masks (m : HashMeta) : Prop :=
  ∃ k, m.highmask = 2 ^ (k + 1) - 1 ∧ m.lowmask = 2 ^ k - 1 ∧ 2 ^ k ≤ m.maxbucket + 1 ∧
    m.maxbucket < 2 ^ (k + 1)

/-- The remainder by half of the divisor. -/
theorem mod_half (n k : ℕ) :
    n % 2 ^ (k + 1) < 2 ^ k ∧ n % 2 ^ k = n % 2 ^ (k + 1) ∨
      2 ^ k ≤ n % 2 ^ (k + 1) ∧ n % 2 ^ k + 2 ^ k = n % 2 ^ (k + 1) := by
  have hmod : n % 2 ^ (k + 1) % 2 ^ k = n % 2 ^ k :=
    Nat.mod_mod_of_dvd n (pow_dvd_pow 2 (Nat.le_succ k))
  rcases Nat.lt_or_ge (n % 2 ^ (k + 1)) (2 ^ k) with h | h
  · exact Or.inl ⟨h, by rw [← hmod, Nat.mod_eq_of_lt h]⟩
  · refine Or.inr ⟨h, ?_⟩
    rw [← hmod, Nat.mod_eq_sub_mod h, Nat.mod_eq_of_lt (by omega)]
    omega

namespace HashMeta

variable {m : HashMeta}

theorem hashkey2bucket_eq {k : ℕ} (hhigh : m.highmask = 2 ^ (k + 1) - 1)
    (hlow : m.lowmask = 2 ^ k - 1) (key : ℕ) :
    m.hashkey2bucket key =
      if key % 2 ^ (k + 1) > m.maxbucket then key % 2 ^ k else key % 2 ^ (k + 1) := by
  rw [hashkey2bucket, hhigh, hlow, Nat.and_two_pow_sub_one_eq_mod, Nat.and_two_pow_sub_one_eq_mod,
    Nat.mod_mod_of_dvd key (pow_dvd_pow 2 (Nat.le_succ k))]

theorem Masks.hashkey2bucket_le (h : m.Masks) (key : ℕ) : m.hashkey2bucket key ≤ m.maxbucket := by
  obtain ⟨k, hhigh, hlow, hle, -⟩ := h
  rw [hashkey2bucket_eq hhigh hlow]
  split_ifs with hgt
  · have := Nat.mod_lt key (Nat.two_pow_pos k)
    omega
  · exact Nat.le_of_not_lt hgt

theorem addBucket_masks {k : ℕ} (hhigh : m.highmask = 2 ^ (k + 1) - 1)
    (hlow : m.lowmask = 2 ^ k - 1) (hlt : m.maxbucket < 2 ^ (k + 1)) :
    m.maxbucket + 1 < 2 ^ (k + 1) ∧ m.addBucket.highmask = 2 ^ (k + 1) - 1 ∧
        m.addBucket.lowmask = 2 ^ k - 1 ∨
      m.maxbucket + 1 = 2 ^ (k + 1) ∧ m.addBucket.highmask = 2 ^ (k + 1 + 1) - 1 ∧
        m.addBucket.lowmask = 2 ^ (k + 1) - 1 := by
  have hpos := Nat.two_pow_pos (k + 1)
  simp only [addBucket, hhigh]
  rcases Nat.lt_or_ge (m.maxbucket + 1) (2 ^ (k + 1)) with hroom | hfull
  · left
    rw [if_neg (by omega), if_neg (by omega)]
    exact ⟨hroom, rfl, hlow⟩
  · right
    have heq : m.maxbucket + 1 = 2 ^ (k + 1) := by omega
    have hor := Nat.two_pow_add_eq_or_of_lt (show 2 ^ (k + 1) - 1 < 2 ^ (k + 1) by omega) 1
    rw [Nat.mul_one] at hor
    rw [if_pos (by omega), if_pos (by omega), heq]
    omega

theorem Masks.addBucket (h : m.Masks) : m.addBucket.Masks := by
  obtain ⟨k, hhigh, hlow, hle, hlt⟩ := h
  rcases addBucket_masks hhigh hlow hlt with ⟨hroom, h1, h2⟩ | ⟨hfull, h1, h2⟩
  · refine ⟨k, h1, h2, ?_, ?_⟩
    · simp only [HashMeta.addBucket]
      omega
    · exact hroom
  · refine ⟨k + 1, h1, h2, ?_, ?_⟩
    all_goals
      simp only [HashMeta.addBucket]
      omega

theorem Masks.hashkey2bucket_addBucket (h : m.Masks) (key : ℕ)
    (hne : m.addBucket.hashkey2bucket key ≠ m.hashkey2bucket key) :
    m.hashkey2bucket key = m.oldBucket ∧ m.addBucket.hashkey2bucket key = m.maxbucket + 1 := by
  obtain ⟨k, hhigh, hlow, hle, hlt⟩ := h
  have hmax : m.addBucket.maxbucket = m.maxbucket + 1 := rfl
  have hhalf := mod_half key k
  rw [oldBucket, hlow, Nat.and_two_pow_sub_one_eq_mod]
  rcases addBucket_masks hhigh hlow hlt with ⟨hroom, h1, h2⟩ | ⟨hfull, h1, h2⟩
  · -- within a doubling only the keys of the new bucket itself move
    have hold : (m.maxbucket + 1) % 2 ^ k = m.maxbucket + 1 - 2 ^ k := by
      rw [Nat.mod_eq_sub_mod hle, Nat.mod_eq_of_lt (by omega)]
    rw [hashkey2bucket_eq h1 h2, hashkey2bucket_eq hhigh hlow] at hne ⊢
    split_ifs at hne ⊢ <;> omega
  · -- when a doubling starts, so does the old mask
    have hold : (m.maxbucket + 1) % 2 ^ k = 0 := by
      rw [hfull, pow_succ, Nat.mul_mod_right]
    have hhalf' := mod_half key (k + 1)
    rw [hashkey2bucket_eq h1 h2, hashkey2bucket_eq hhigh hlow] at hne ⊢
    split_ifs at hne ⊢ <;> omega

end HashMeta

/-! ### The initial index -/

theorem nextPower2_spec {n : ℕ} (hn : 2 ≤ n) :
    ∃ k, nextPower2 n = 2 ^ (k + 1) ∧ 2 ^ k < n ∧ n ≤ 2 ^ (k + 1) := by
  rw [nextPower2]
  split_ifs with hpow
  · obtain ⟨m, heq⟩ := (Nat.and_sub_one_eq_zero_iff_isPowerOfTwo (by omega)).1 hpow
    cases m with
    | zero => omega
    | succ k =>
      have hlt : 2 ^ k < 2 ^ (k + 1) := Nat.pow_lt_pow_right (by decide) (Nat.lt_succ_self k)
      exact ⟨k, heq, heq ▸ hlt, heq.le⟩
  · have hle : 2 ^ n.log2 ≤ n := Nat.log2_self_le (by omega)
    have hlt : n < 2 ^ (n.log2 + 1) := Nat.lt_log2_self
    refine ⟨n.log2, by rw [leftmostOnePos, Nat.one_shiftLeft], ?_, hlt.le⟩
    -- a power of two shares no bit with its predecessor
    refine Nat.lt_of_le_of_ne hle fun heq => hpow ?_
    rw [← heq, Nat.and_two_pow_sub_one_eq_mod, Nat.mod_self]

/-- The initial buckets are those of whole phases. -/
theorem initialBuckets_spec (dnumbuckets : ℚ) :
    ∃ p, 1 ≤ p ∧ initialBuckets dnumbuckets = totalBuckets p ∧
      initialBuckets dnumbuckets ≤ 0x40000000 := by
  rw [initialBuckets]
  split_ifs with hle hge
  · exact ⟨1, le_rfl, rfl, by decide⟩
  · exact ⟨93, by decide, rfl, le_rfl⟩
  · have hfloor : 2 ≤ dnumbuckets.floor := Rat.le_floor_iff.2 (le_of_lt (not_le.1 hle))
    have hfloor' : dnumbuckets.floor < 0x40000000 := Rat.floor_lt_iff.2 (not_le.1 hge)
    obtain ⟨hpos, hlow, -⟩ := spareIndex_spec (show 2 ≤ dnumbuckets.floor.toNat by omega)
    refine ⟨_, hpos, rfl, ?_⟩
    have h93 : totalBuckets 93 = 0x40000000 := rfl
    have : totalBuckets (spareIndex dnumbuckets.floor.toNat - 1) < totalBuckets 93 := by omega
    have := totalBuckets_strictMono.lt_iff_lt.1 this
    rw [← h93]
    exact totalBuckets_strictMono.monotone (by omega)

end PgCutover.Hash
