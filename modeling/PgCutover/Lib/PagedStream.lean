import PgCutover.Lib.Memory

/-!
# Streams stored on pages

A stream of bytes is stored on pages of equal size.
-/

namespace PgCutover.Lib

open Function List

variable {β : Type*} {m m' : ℕ → β}

/-- The layout of the pages. -/
structure Paging where
  pageSize : ℕ
  /-- The size of the header of each page. -/
  hdr : ℕ → ℕ
  hdr_pos : ∀ p, 0 < hdr p
  hdr_lt : ∀ p, hdr p < pageSize

namespace Paging

variable (P : Paging)

/-- The bytes of the stream on the pages before a page. -/
def before : ℕ → ℕ
  | 0 => 0
  | p + 1 => before p + (P.pageSize - P.hdr p)

/-- Byte `b` belongs on page `p`. -/
def OnPage (p b : ℕ) : Prop := P.before p ≤ b ∧ b < P.before (p + 1)

/-- The byte with number `b` of the stream is at the address `a`. -/
def StoredAt (b a : ℕ) : Prop :=
  ∃ p, P.OnPage p b ∧ a = p * P.pageSize + P.hdr p + (b - P.before p)

/-- The address at which the first `b` bytes of the stream end. -/
def EndsAt (b a : ℕ) : Prop :=
  ∃ p, P.OnPage p b ∧
    a = p * P.pageSize + if b = P.before p then 0 else P.hdr p + (b - P.before p)

/-- A writer whose next byte is byte `b` may stand at address `a`. -/
def Denotes (b a : ℕ) : Prop := P.StoredAt b a ∨ P.EndsAt b a

/-- The space that is left on a page after an address. -/
def freeAfter (a : ℕ) : ℕ := if a % P.pageSize = 0 then 0 else P.pageSize - a % P.pageSize

/-- The number of the byte at an address. -/
def position (a : ℕ) : ℕ :=
  P.before (a / P.pageSize) + (a % P.pageSize - P.hdr (a / P.pageSize))

variable {P} {a a' b b' p : ℕ}

theorem before_succ (p : ℕ) : P.before (p + 1) + P.hdr p = P.before p + P.pageSize := by
  have hlt := P.hdr_lt p
  rw [before]
  omega

theorem before_strictMono : StrictMono P.before := by
  apply strictMono_nat_of_lt_succ
  intro p
  have hlt := P.hdr_lt p
  have hsucc := before_succ (P := P) p
  omega

theorem exists_onPage (b : ℕ) : ∃ p, P.OnPage p b := by
  induction b with
  | zero => exact ⟨0, Nat.zero_le _, Nat.zero_lt_of_lt (before_strictMono (Nat.lt_succ_self 0))⟩
  | succ b ih =>
    obtain ⟨p, hle, hlt⟩ := ih
    -- the next byte is on the same page, or it is the first one of the next page
    rcases Nat.lt_or_eq_of_le (Nat.succ_le_of_lt hlt) with hlt' | heq
    · exact ⟨p, Nat.le_succ_of_le hle, hlt'⟩
    · exact ⟨p + 1, heq.ge, heq.trans_lt (before_strictMono (Nat.lt_succ_self _))⟩

/-- Pages are ordered as the bytes on them. -/
theorem OnPage.le_of_le {p' : ℕ} (h : P.OnPage p b) (h' : P.OnPage p' b') (hle : b ≤ b') :
    p ≤ p' := by
  by_contra hlt
  have hmono := before_strictMono.monotone (Nat.succ_le_of_lt (Nat.lt_of_not_le hlt))
    (f := P.before)
  exact absurd (h.1.trans hle) (Nat.not_le.2 (h'.2.trans_le hmono))

theorem OnPage.unique {p' : ℕ} (h : P.OnPage p b) (h' : P.OnPage p' b) : p = p' :=
  Nat.le_antisymm (h.le_of_le h' le_rfl) (h'.le_of_le h le_rfl)

/-- The offset on its page of a byte that is stored there. -/
theorem OnPage.offset_lt (h : P.OnPage p b) : P.hdr p + (b - P.before p) < P.pageSize := by
  have hsucc := before_succ (P := P) p
  have hlast := h.2
  have hfirst := h.1
  omega

theorem StoredAt.unique (h : P.StoredAt b a) (h' : P.StoredAt b a') : a = a' := by
  obtain ⟨p, hp, rfl⟩ := h
  obtain ⟨_, hp', rfl⟩ := h'
  rw [hp.unique hp']

theorem EndsAt.unique (h : P.EndsAt b a) (h' : P.EndsAt b a') : a = a' := by
  obtain ⟨p, hp, rfl⟩ := h
  obtain ⟨_, hp', rfl⟩ := h'
  rw [hp.unique hp']

theorem EndsAt.le_storedAt (h : P.EndsAt b a) (h' : P.StoredAt b a') : a ≤ a' := by
  obtain ⟨p, hp, rfl⟩ := h
  obtain ⟨_, hp', rfl⟩ := h'
  rw [hp.unique hp']
  split_ifs <;> omega

theorem StoredAt.lt_endsAt (h : P.StoredAt b a) (h' : P.EndsAt b' a') (hlt : b < b') : a < a' := by
  obtain ⟨p, hp, rfl⟩ := h
  obtain ⟨_, hp', rfl⟩ := h'
  rcases Nat.lt_or_eq_of_le (hp.le_of_le hp' hlt.le) with hpage | rfl
  · -- the address is on an earlier page
    have hmul := Nat.mul_le_mul_right P.pageSize (Nat.succ_le_of_lt hpage)
    have hoffset := hp.offset_lt
    rw [Nat.succ_mul] at hmul
    omega
  · have hfirst := hp.1
    rw [if_neg (by omega)]
    omega

theorem StoredAt.lt_of_lt (h : P.StoredAt b a) (h' : P.StoredAt b' a') (hlt : b < b') :
    a < a' := by
  obtain ⟨p, hp⟩ := exists_onPage (P := P) b'
  have hend : P.EndsAt b' _ := ⟨p, hp, rfl⟩
  exact (h.lt_endsAt hend hlt).trans_le (hend.le_storedAt h')

/-! ### Addresses -/

theorem mul_add_mod {off : ℕ} (hoff : off < P.pageSize) :
    (p * P.pageSize + off) % P.pageSize = off :=
  Nat.mul_add_mod_of_lt hoff

theorem mul_add_div {off : ℕ} (hoff : off < P.pageSize) :
    (p * P.pageSize + off) / P.pageSize = p := by
  rw [Nat.mul_comm, Nat.mul_add_div (Nat.zero_lt_of_lt hoff), Nat.div_eq_of_lt hoff, Nat.add_zero]

theorem StoredAt.position_eq (h : P.StoredAt b a) : P.position a = b := by
  obtain ⟨p, hp, rfl⟩ := h
  have hfirst := hp.1
  rw [Nat.add_assoc, position, mul_add_mod hp.offset_lt, mul_add_div hp.offset_lt]
  omega

theorem EndsAt.position_eq (h : P.EndsAt b a) : P.position a = b := by
  obtain ⟨p, hp, rfl⟩ := h
  have hfirst := hp.1
  split_ifs with heq
  · have hpos := Nat.zero_lt_of_lt (P.hdr_lt p)
    rw [position, mul_add_mod hpos, mul_add_div hpos]
    omega
  · rw [position, mul_add_mod hp.offset_lt, mul_add_div hp.offset_lt]
    omega

/-! ### Writing -/

/-- Where a writer stands: inside of a page, with the rest of it free, or before the header of a
page. -/
theorem Denotes.cases (h : P.Denotes b a) :
    (∃ p, P.OnPage p b ∧ a = p * P.pageSize + (P.hdr p + (b - P.before p))) ∨
      ∃ p, b = P.before p ∧ a = p * P.pageSize := by
  rcases h with ⟨p, hp, rfl⟩ | ⟨p, hp, rfl⟩
  · exact .inl ⟨p, hp, Nat.add_assoc _ _ _⟩
  · split_ifs with heq
    · exact .inr ⟨p, heq, rfl⟩
    · exact .inl ⟨p, hp, rfl⟩

theorem freeAfter_page (p : ℕ) : P.freeAfter (p * P.pageSize) = 0 := by
  rw [freeAfter, Nat.mul_mod_left, if_pos rfl]

theorem OnPage.freeAfter_eq (h : P.OnPage p b) :
    P.freeAfter (p * P.pageSize + (P.hdr p + (b - P.before p))) = P.before (p + 1) - b := by
  have hsucc := before_succ (P := P) p
  have hpos := P.hdr_pos p
  have hfirst := h.1
  rw [freeAfter, mul_add_mod h.offset_lt, if_neg (by omega)]
  omega

theorem endsAt_before (p : ℕ) : P.EndsAt (P.before p) (p * P.pageSize) :=
  ⟨p, ⟨le_rfl, before_strictMono (Nat.lt_succ_self p)⟩, by rw [if_pos rfl, Nat.add_zero]⟩

theorem storedAt_before (p : ℕ) : P.StoredAt (P.before p) (p * P.pageSize + P.hdr p) :=
  ⟨p, ⟨le_rfl, before_strictMono (Nat.lt_succ_self p)⟩, by rw [Nat.sub_self, Nat.add_zero]⟩

/-- Bytes that fit on the page. -/
theorem Denotes.advance (h : P.Denotes b a) {k : ℕ} (hpos : 0 < k) (hk : k ≤ P.freeAfter a) :
    P.EndsAt (b + k) (a + k) := by
  rcases h.cases with ⟨p, hp, rfl⟩ | ⟨p, rfl, rfl⟩
  · rw [hp.freeAfter_eq] at hk
    have hfirst := hp.1
    rcases Nat.lt_or_eq_of_le hk with hlt | heq
    · refine ⟨p, ⟨by omega, by omega⟩, ?_⟩
      rw [if_neg (by omega)]
      omega
    · -- the page is full
      have hsucc := before_succ (P := P) p
      have hend := endsAt_before (P := P) (p + 1)
      rw [Nat.succ_mul] at hend
      convert hend using 1 <;> omega
  · rw [freeAfter_page] at hk
    omega

/-- Where the bytes are stored that fit on the page. -/
theorem Denotes.storedAt_add (h : P.Denotes b a) {k : ℕ} (hk : k < P.freeAfter a) :
    P.StoredAt (b + k) (a + k) := by
  rcases h.cases with ⟨p, hp, rfl⟩ | ⟨p, rfl, rfl⟩
  · rw [hp.freeAfter_eq] at hk
    have hfirst := hp.1
    exact ⟨p, ⟨by omega, by omega⟩, by omega⟩
  · rw [freeAfter_page] at hk
    exact absurd hk (Nat.not_lt_zero k)

/-- A writer has passed the bytes that it has written. -/
theorem StoredAt.lt_denotes (h : P.StoredAt b a) (h' : P.Denotes b' a') (hlt : b < b') :
    a < a' := by
  rcases h' with h' | h'
  · exact h.lt_of_lt h' hlt
  · exact h.lt_endsAt h' hlt

/-- What is left on the page is filled, and the header of the next page is skipped. -/
theorem Denotes.nextPage (h : P.Denotes b a) :
    P.pageSize ∣ a + P.freeAfter a ∧
      P.StoredAt (b + P.freeAfter a)
        (a + P.freeAfter a + P.hdr ((a + P.freeAfter a) / P.pageSize)) := by
  rcases h.cases with ⟨p, hp, rfl⟩ | ⟨p, rfl, rfl⟩
  · have hsucc := before_succ (P := P) p
    have hfirst := hp.1
    have hlast := hp.2
    have haddr : p * P.pageSize + (P.hdr p + (b - P.before p)) + (P.before (p + 1) - b) =
        (p + 1) * P.pageSize := by
      rw [Nat.succ_mul]
      omega
    rw [hp.freeAfter_eq, haddr, Nat.mul_div_left _ (Nat.zero_lt_of_lt (P.hdr_lt p)),
      Nat.add_sub_cancel' hlast.le]
    exact ⟨Nat.dvd_mul_left _ _, storedAt_before (p + 1)⟩
  · rw [freeAfter_page, Nat.add_zero, Nat.add_zero,
      Nat.mul_div_left _ (Nat.zero_lt_of_lt (P.hdr_lt p))]
    exact ⟨Nat.dvd_mul_left _ _, storedAt_before p⟩

/-- There is space for a byte where a byte is stored. -/
theorem StoredAt.freeAfter_pos (h : P.StoredAt b a) : 0 < P.freeAfter a := by
  obtain ⟨p, hp, rfl⟩ := h
  have hlast := hp.2
  rw [Nat.add_assoc, hp.freeAfter_eq]
  omega

/-- The end of the page is the first page boundary. -/
theorem add_freeAfter_le {m : ℕ} (hle : a ≤ m) (hm : P.pageSize ∣ m) : a + P.freeAfter a ≤ m := by
  rw [freeAfter]
  split_ifs with hzero
  · exact hle
  · obtain ⟨k, rfl⟩ := hm
    have hsplit := Nat.div_add_mod a P.pageSize
    have hpage : a / P.pageSize < k := by
      apply Nat.lt_of_mul_lt_mul_left (a := P.pageSize)
      omega
    have hmul := Nat.mul_le_mul_left P.pageSize (Nat.succ_le_of_lt hpage)
    rw [Nat.mul_succ] at hmul
    omega

theorem freeAfter_add (a : ℕ) {k : ℕ} (hk : k ≤ P.freeAfter a) :
    P.freeAfter (a + k) = P.freeAfter a - k := by
  have hpos : 0 < P.pageSize := Nat.zero_lt_of_lt (P.hdr_lt 0)
  have hlt := Nat.mod_lt a hpos
  have hmod : (a + k) % P.pageSize = (a % P.pageSize + k) % P.pageSize := by
    rw [Nat.mod_add_mod]
  rw [freeAfter] at hk ⊢
  rw [freeAfter, hmod]
  by_cases hzero : a % P.pageSize = 0
  · rw [if_pos hzero] at hk ⊢
    rw [Nat.le_zero.1 hk, hzero, Nat.zero_mod, if_pos rfl]
  · rw [if_neg hzero] at hk ⊢
    rcases Nat.lt_or_eq_of_le (show a % P.pageSize + k ≤ P.pageSize by omega) with hroom | hfull
    · rw [Nat.mod_eq_of_lt hroom, if_neg (by omega)]
      omega
    · rw [hfull, Nat.mod_self, if_pos rfl]
      omega

/-! ### Alignment -/

section Align

variable {d : ℕ} (hpage : d ∣ P.pageSize) (hhdr : ∀ p, d ∣ P.hdr p)
include hpage hhdr

theorem dvd_before (p : ℕ) : d ∣ P.before p := by
  induction p with
  | zero => exact Nat.dvd_zero d
  | succ p ih =>
    have hsum : d ∣ P.before (p + 1) + P.hdr p := before_succ (P := P) p ▸ Nat.dvd_add ih hpage
    exact (Nat.dvd_add_iff_left (hhdr p)).2 hsum

theorem EndsAt.mod_eq (h : P.EndsAt b a) : a % d = b % d := by
  obtain ⟨p, hp, rfl⟩ := h
  have hpages : d ∣ p * P.pageSize := Nat.dvd_mul_left_of_dvd hpage p
  have hbefore := dvd_before hpage hhdr p
  split_ifs with heq
  · rw [heq, Nat.add_zero, Nat.mod_eq_zero_of_dvd hpages, Nat.mod_eq_zero_of_dvd hbefore]
  · have hfirst := hp.1
    obtain ⟨m, hm⟩ := Nat.dvd_add hpages (hhdr p)
    obtain ⟨l, hl⟩ := hbefore
    rw [← Nat.add_assoc, hm, Nat.mul_add_mod_self_left]
    conv_rhs => rw [← Nat.sub_add_cancel hfirst, hl, Nat.add_mul_mod_self_left]
    rw [hl]

/-- Rounding up does not leave the page. -/
theorem EndsAt.align (h : P.EndsAt b a) {k : ℕ} (hk : k < d) (hdvd : d ∣ b + k) :
    P.EndsAt (b + k) (a + k) := by
  rcases Nat.eq_zero_or_pos k with rfl | hpos
  · exact h
  refine Denotes.advance (.inr h) hpos ?_
  obtain ⟨p, hp, rfl⟩ := h
  have hbefore := dvd_before hpage hhdr p
  have hne : b ≠ P.before p := by
    rintro rfl
    exact absurd (Nat.le_of_dvd hpos ((Nat.dvd_add_iff_right hbefore).2 hdvd)) (Nat.not_le.2 hk)
  rw [if_neg hne, hp.freeAfter_eq]
  -- the first byte of the next page is aligned, so it is not passed
  by_contra hlt
  have hlast := hp.2
  have hgap : d ∣ b + k - P.before (p + 1) := Nat.dvd_sub hdvd (dvd_before hpage hhdr (p + 1))
  exact absurd (Nat.le_of_dvd (by omega) hgap) (by omega)

end Align

end Paging

end PgCutover.Lib
