import PgCutover.Ipc.SInval

/-!
# Cleaning the queue of invalidation messages

What the loops over all backends do: the scan for the oldest message still needed, which may put
backends into reset state, the decrement of all counters, and the reset of all backends.
-/

namespace PgCutover.SInval

open Function State List

/-- The backend that is known to receive messages. -/
def ProcState.receives (stateP : ProcState) : Bool := stateP.active && !stateP.sendOnly

/-- A backend may be put into reset state. -/
structure MayReset (stateP stateP' : ProcState) : Prop where
  active : stateP'.active = stateP.active
  nextMsgNum : stateP'.nextMsgNum = stateP.nextMsgNum
  sendOnly : stateP'.sendOnly = stateP.sendOnly
  hasMessages : stateP.hasMessages = true → stateP'.hasMessages = true
  resetState : stateP.resetState = true → stateP'.resetState = true

theorem MayReset.refl (stateP : ProcState) : MayReset stateP stateP :=
  ⟨rfl, rfl, rfl, id, id⟩

theorem MayReset.trans {a b c : ProcState} (h : MayReset a b) (h' : MayReset b c) :
    MayReset a c :=
  ⟨h'.active.trans h.active, h'.nextMsgNum.trans h.nextMsgNum, h'.sendOnly.trans h.sendOnly,
    fun ha => h'.hasMessages (h.hasMessages ha), fun ha => h'.resetState (h.resetState ha)⟩

/-- What the scan has to take into account. -/
def ProcState.counts (stateP : ProcState) : Bool := !stateP.resetState && !stateP.sendOnly

/-! ### The scan -/

section Scan

variable {lowbound m : ℤ} {scan : Scan} {i : ℕ}

/-- The scan of one backend may put that backend into reset state. -/
theorem scanEntry_mayReset (k : ℕ) :
    MayReset (scan.procState k) ((scanEntry lowbound scan i).procState k) := by
  rw [scanEntry]
  dsimp only
  split_ifs
  · exact .refl _
  · by_cases hk : k = i
    · subst hk
      dsimp only
      rw [update_self]
      exact ⟨rfl, rfl, rfl, id, fun _ => rfl⟩
    · dsimp only
      rw [update_of_ne hk]
      exact .refl _
  all_goals exact .refl _

/-- The minimum only decreases. -/
theorem scanEntry_min_le : (scanEntry lowbound scan i).min ≤ scan.min := by
  rw [scanEntry]
  dsimp only
  split_ifs <;> first | exact Int.le_refl _ | (dsimp only; omega)

/-- The minimum stays above what is below the counters. -/
theorem le_scanEntry_min (hmin : m ≤ scan.min)
    (hi : (scan.procState i).counts = true → m ≤ (scan.procState i).nextMsgNum) :
    m ≤ (scanEntry lowbound scan i).min := by
  rw [scanEntry]
  dsimp only
  split_ifs with hskip
  · exact hmin
  · exact hmin
  all_goals
    have hcounts : (scan.procState i).counts = true := by
      rw [ProcState.counts]
      simpa using hskip
    have := hi hcounts
    first | exact hmin | exact this

/-- A backend that the scan leaves as it is holds the minimum down. -/
theorem scanEntry_min_le_next
    (hcounts : ((scanEntry lowbound scan i).procState i).counts = true) :
    (scanEntry lowbound scan i).min ≤ (scan.procState i).nextMsgNum := by
  rw [scanEntry] at hcounts ⊢
  dsimp only at hcounts ⊢
  split_ifs at hcounts ⊢ with hskip
  · rw [ProcState.counts] at hcounts
    rw [Bool.or_eq_true] at hskip
    rcases hskip with hskip | hskip <;> simp [hskip] at hcounts
  · simp [ProcState.counts] at hcounts
  all_goals first | exact Int.le_refl _ | omega | (dsimp only; omega)

/-- A backend that counts after a reset of others counted before it. -/
theorem counts_of_mayReset {a b : ProcState} (h : MayReset a b) (hb : b.counts = true) :
    a.counts = true := by
  rw [ProcState.counts, h.sendOnly, Bool.and_eq_true] at hb
  rw [ProcState.counts, Bool.and_eq_true]
  refine ⟨?_, hb.2⟩
  cases ha : a.resetState with
  | false => rfl
  | true =>
    rw [h.resetState ha] at hb
    exact hb.1

variable {l : List ℕ}

/-- The scan does nothing else to the backends. -/
theorem scanAll_mayReset (k : ℕ) :
    MayReset (scan.procState k) ((l.foldl (scanEntry lowbound) scan).procState k) := by
  induction l generalizing scan with
  | nil => exact .refl _
  | cons i l ih => exact (scanEntry_mayReset k).trans ih

theorem scanAll_min_le : (l.foldl (scanEntry lowbound) scan).min ≤ scan.min := by
  induction l generalizing scan with
  | nil => exact Int.le_refl _
  | cons i l ih => exact Int.le_trans ih scanEntry_min_le

/-- A bound of all counters is a bound of the minimum. -/
theorem le_scanAll_min (hmin : m ≤ scan.min)
    (hl : ∀ i ∈ l, (scan.procState i).counts = true → m ≤ (scan.procState i).nextMsgNum) :
    m ≤ (l.foldl (scanEntry lowbound) scan).min := by
  induction l generalizing scan with
  | nil => exact hmin
  | cons i l ih =>
    rw [forall_mem_cons] at hl
    refine ih (le_scanEntry_min hmin hl.1) fun k hk hcounts => ?_
    have hreset := @scanEntry_mayReset lowbound scan i k
    rw [hreset.nextMsgNum]
    exact hl.2 k hk (counts_of_mayReset hreset hcounts)

/-- The minimum is below the counters of all backends that count. -/
theorem scanAll_min_le_next (hi : i ∈ l)
    (hcounts : ((l.foldl (scanEntry lowbound) scan).procState i).counts = true) :
    (l.foldl (scanEntry lowbound) scan).min ≤ (scan.procState i).nextMsgNum := by
  induction l generalizing scan with
  | nil => cases hi
  | cons k l ih =>
    rcases mem_cons.1 hi with rfl | hi
    all_goals rw [foldl_cons] at hcounts ⊢
    · refine Int.le_trans scanAll_min_le (scanEntry_min_le_next ?_)
      exact counts_of_mayReset (scanAll_mayReset i) hcounts
    · refine Int.le_trans (ih hi hcounts) (Int.le_of_eq ?_)
      exact (scanEntry_mayReset i).nextMsgNum

end Scan

/-! ### Decrementing the counters -/

/-- Each backend of the array is decremented once. -/
theorem decrementAll_apply {l : List ℕ} (hl : l.Nodup) (procState : ℕ → ProcState) (i : ℕ) :
    decrementAll l procState i =
      if i ∈ l then
        { procState i with nextMsgNum := (procState i).nextMsgNum - msgNumWraparound }
      else procState i := by
  induction l generalizing procState with
  | nil => rfl
  | cons k l ih =>
    obtain ⟨hk, hl⟩ := nodup_cons.1 hl
    rw [decrementAll, foldl_cons, ← decrementAll, ih hl]
    by_cases hik : i = k
    · subst hik
      rw [if_neg hk, if_pos mem_cons_self, update_self]
    · rw [update_of_ne hik]
      simp only [mem_cons, hik, false_or]

/-! ### Resetting all backends -/

/-- `SIResetAll` does nothing else to the backends. -/
theorem resetEntries_mayReset (l : List ℕ) (procState : ℕ → ProcState) (k : ℕ) :
    MayReset (procState k) (resetEntries l procState k) := by
  induction l generalizing procState with
  | nil => exact .refl _
  | cons i l ih =>
    rw [resetEntries, foldl_cons]
    refine MayReset.trans ?_ (ih _)
    split_ifs
    · exact .refl _
    · by_cases hk : k = i
      · subst hk
        rw [update_self]
        exact ⟨rfl, rfl, rfl, fun _ => rfl, fun _ => rfl⟩
      · rw [update_of_ne hk]
        exact .refl _

/-- `SIResetAll` puts every backend that reads messages into reset state. -/
theorem resetEntries_resetState {l : List ℕ} {procState : ℕ → ProcState} {i : ℕ} (hi : i ∈ l)
    (hsend : (procState i).sendOnly = false) : (resetEntries l procState i).resetState = true := by
  induction l generalizing procState with
  | nil => cases hi
  | cons k l ih =>
    rw [resetEntries, foldl_cons]
    by_cases hik : i = k
    · subst hik
      rw [hsend, if_neg (by simp)]
      refine (resetEntries_mayReset l _ i).resetState ?_
      rw [update_self]
    · refine ih ((mem_cons.1 hi).resolve_left hik) ?_
      split_ifs
      · exact hsend
      · rw [update_of_ne hik]
        exact hsend

/-! ### The array of slots in use -/

/-- The last slot takes the place of the one that leaves. -/
theorem removeProcno_concat (p : ℕ) (front : List ℕ) (last : ℕ) :
    removeProcno p (front ++ [last]) = front.map fun i => if i = p then last else i := by
  rw [removeProcno, List.getLast?_concat]
  dsimp only
  rw [map_append, map_singleton, dropLast_concat]

/-- The other slots stay in the array. -/
theorem mem_removeProcno {p i : ℕ} {pgprocnos : List ℕ} (hnodup : pgprocnos.Nodup)
    (hp : p ∈ pgprocnos) : i ∈ removeProcno p pgprocnos ↔ i ∈ pgprocnos ∧ i ≠ p := by
  obtain rfl | ⟨front, last, rfl⟩ := eq_nil_or_concat' pgprocnos
  · cases hp
  · have hlast : last ∉ front := fun h =>
      (nodup_append.1 hnodup).2.2 last h last mem_cons_self rfl
    rw [removeProcno_concat, mem_map]
    simp only [mem_append, mem_singleton] at hp ⊢
    constructor
    · rintro ⟨k, hk, rfl⟩
      by_cases hkp : k = p
      · subst hkp
        rw [if_pos rfl]
        exact ⟨Or.inr rfl, fun h => hlast (h ▸ hk)⟩
      · rw [if_neg hkp]
        exact ⟨Or.inl hk, hkp⟩
    · rintro ⟨hi | rfl, hip⟩
      · exact ⟨i, hi, if_neg hip⟩
      · exact ⟨p, hp.resolve_right (Ne.symm hip), if_pos rfl⟩

theorem nodup_removeProcno {p : ℕ} {pgprocnos : List ℕ} (hnodup : pgprocnos.Nodup) :
    (removeProcno p pgprocnos).Nodup := by
  obtain rfl | ⟨front, last, rfl⟩ := eq_nil_or_concat' pgprocnos
  · exact nodup_nil
  · obtain ⟨hfront, -, hlast⟩ := nodup_append.1 hnodup
    rw [removeProcno_concat]
    refine List.Nodup.map_on ?_ hfront
    intro x hx y hy hxy
    have hne : ∀ z ∈ front, z ≠ last := fun z hz => hlast z hz last mem_cons_self
    split_ifs at hxy with h₁ h₂ h₂
    · rw [h₁, h₂]
    · exact absurd hxy.symm (hne y hy)
    · exact absurd hxy (hne x hx)
    · exact hxy

end PgCutover.SInval
