import PgCutover.Lib.Delegation
import PgCutover.Privileges.Revoke

/-!
# What granting and a new owner leave

An update that adds rights adds those of one item, unless it fails (`aclupdate_add`). A new
owner takes the place of the old one in everything the list grants (`has_aclnewowner`), and
merging the duplicates that this makes loses nothing.
-/

namespace PgCutover.Privileges

/-! ### Granting -/

/-- The list after an update that adds an item's bits, before any check. -/
abbrev added (acl : Acl) (modAip : AclItem) : Acl :=
  (updateItem modAip (ModeChange.add.apply · modAip.aiPrivs) acl).2

variable {acl : Acl} {g r oldOwnerId newOwnerId : Oid} {i : ℕ}

theorem has_added (h : Distinct acl) {modAip : AclItem} :
    Has (added acl modAip) g r i ↔ Has acl g r i ∨
      (g = modAip.aiGrantor ∧ r = modAip.aiGrantee ∧ modAip.aiPrivs.getLsbD i = true) := by
  rw [has_updateItem h]
  split_ifs with hgr
  · rw [ModeChange.apply, BitVec.getLsbD_or, Bool.or_eq_true, getLsbD_updateItem_fst h, hgr.1,
      hgr.2]
    simp
  · constructor
    · exact .inl
    · rintro (hhas | hcontra)
      · exact hhas
      · exact absurd ⟨hcontra.1, hcontra.2.1⟩ hgr

theorem checkCircularity_ok_or (ownerId : Oid) (h : Distinct acl) (modAip : AclItem)
    {fuel : ℕ} (hfuel : 3 * weight acl + 2 ≤ fuel) :
    checkCircularity fuel acl modAip ownerId = .ok () ∨
      checkCircularity fuel acl modAip ownerId = .error grantedBack := by
  cases fuel with
  | zero => exact absurd hfuel (by omega)
  | succ fuel =>
    rw [checkCircularity]
    by_cases howner : modAip.aiGrantor = ownerId
    · rw [if_pos howner]
      exact .inl rfl
    · obtain ⟨_, hzap⟩ := zapOptions_ok ownerId modAip.aiGrantee fuel h (by omega)
      rw [if_neg howner, hzap]
      change (if _ then _ else _) = _ ∨ (if _ then _ else _) = _
      split_ifs
      · exact .inr rfl
      · exact .inl rfl

/-- **Granting.** It ends, with an error or with the rights added. -/
theorem aclupdate_add {ownerId : Oid} (h : Distinct acl) (modAip : AclItem)
    (behavior : DropBehavior) :
    aclupdate (fuelFor acl) acl modAip .add ownerId behavior = .ok (added acl modAip) ∨
      aclupdate (fuelFor acl) acl modAip .add ownerId behavior = .error grantedBack := by
  have hlost : getGoptions (updateItem modAip (ModeChange.add.apply · modAip.aiPrivs) acl).1 &&&
      ~~~getGoptions (ModeChange.add.apply
        (updateItem modAip (ModeChange.add.apply · modAip.aiPrivs) acl).1
          modAip.aiPrivs) = 0#64 := by
    rw [eq_zero_iff_getLsbD]
    intro i
    rw [← Bool.not_eq_true, getLsbD_and_not]
    rintro ⟨hold, hnew⟩
    rw [getLsbD_getGoptions, Bool.and_eq_true] at hold
    rw [getLsbD_getGoptions, ModeChange.apply, BitVec.getLsbD_or, hold.1, hold.2] at hnew
    exact absurd hnew (by simp)
  have hupdated : aclupdate (fuelFor acl) acl modAip .add ownerId behavior =
      (if getGoptions modAip.aiPrivs ≠ 0#64 then
        checkCircularity (3 * weight acl + 2) acl modAip ownerId else .ok ()) >>=
      fun _ => .ok (added acl modAip) := by
    rw [fuelFor, aclupdate]
    simp only [hlost, ne_eq, not_true_eq_false, if_false, reduceCtorEq, not_false_eq_true, true_and]
    split_ifs
    · rfl
    · rfl
  rw [hupdated]
  split_ifs
  · rcases checkCircularity_ok_or ownerId h modAip le_rfl with hok | herror
    · rw [hok]
      exact .inl rfl
    · rw [herror]
      exact .inr rfl
  · exact .inl rfl

/-! ### Merging duplicates -/

variable (targ : AclItem)

@[simp] theorem mergeInto_aiGrantor (acl : Acl) :
    (mergeInto targ acl).1.aiGrantor = targ.aiGrantor := by
  induction acl generalizing targ with
  | nil => rfl
  | cons _ _ ih =>
    rw [mergeInto]
    split_ifs <;> exact ih _

@[simp] theorem mergeInto_aiGrantee (acl : Acl) :
    (mergeInto targ acl).1.aiGrantee = targ.aiGrantee := by
  induction acl generalizing targ with
  | nil => rfl
  | cons _ _ ih =>
    rw [mergeInto]
    split_ifs <;> exact ih _

/-- The item takes over the bits of its duplicates. -/
theorem getLsbD_mergeInto (acl : Acl) (i : ℕ) :
    (mergeInto targ acl).1.aiPrivs.getLsbD i = true ↔
      targ.aiPrivs.getLsbD i = true ∨ Has acl targ.aiGrantor targ.aiGrantee i := by
  induction acl generalizing targ with
  | nil => simp [mergeInto]
  | cons src _ ih =>
    rw [mergeInto, has_cons]
    split_ifs with hmatch
    · obtain ⟨hgrantee, hgrantor⟩ := aclitemMatch_iff.1 hmatch.2
      rw [ih]
      simp only [BitVec.getLsbD_or, Bool.or_eq_true, hgrantor, hgrantee, true_and, or_assoc]
    · simp only
      rw [ih]
      have hnot : ¬ (src.aiGrantor = targ.aiGrantor ∧ src.aiGrantee = targ.aiGrantee ∧
          src.aiPrivs.getLsbD i = true) := by
        rintro ⟨hgrantor, hgrantee, hbit⟩
        exact hmatch ⟨ne_zero_iff_getLsbD.2 ⟨i, hbit⟩,
          aclitemMatch_iff.2 ⟨hgrantee.symm, hgrantor.symm⟩⟩
      rw [or_iff_right hnot]

/-- The duplicates have no bits left, and nothing else changes. -/
theorem has_mergeInto (acl : Acl) :
    Has (mergeInto targ acl).2 g r i ↔
      Has acl g r i ∧ ¬ (g = targ.aiGrantor ∧ r = targ.aiGrantee) := by
  induction acl generalizing targ with
  | nil => simp [mergeInto]
  | cons _ _ ih =>
    rw [mergeInto]
    split_ifs with hmatch
    · obtain ⟨hgrantee, hgrantor⟩ := aclitemMatch_iff.1 hmatch.2
      simp only
      rw [has_cons, has_cons, ih, BitVec.getLsbD_zero, hgrantor, hgrantee]
      constructor
      · rintro (hcontra | hhas)
        · exact absurd hcontra.2.2 Bool.false_ne_true
        · exact ⟨.inr hhas.1, hhas.2⟩
      · rintro ⟨hsrc | hhas, hne⟩
        · exact absurd ⟨hsrc.1.symm, hsrc.2.1.symm⟩ hne
        · exact .inr ⟨hhas, hne⟩
    · simp only
      rw [has_cons, has_cons, ih, or_and_right]
      refine or_congr (iff_self_and.2 ?_) Iff.rfl
      rintro ⟨rfl, rfl, hbit⟩ ⟨hgrantor, hgrantee⟩
      exact hmatch ⟨ne_zero_iff_getLsbD.2 ⟨i, hbit⟩,
        aclitemMatch_iff.2 ⟨hgrantee.symm, hgrantor.symm⟩⟩

/-- Merging loses nothing and adds nothing. -/
theorem has_mergeDuplicates :
    Has (mergeDuplicates acl) g r i ↔ Has acl g r i := by
  induction acl using mergeDuplicates.induct with
  | case1 => rw [mergeDuplicates]
  | case2 _ _ hzero ih =>
    rw [mergeDuplicates, if_pos hzero, ih, has_cons, hzero]
    simp
  | case3 targ _ hzero ih =>
    rw [mergeDuplicates, if_neg hzero, has_cons, has_cons, ih, has_mergeInto, getLsbD_mergeInto,
      mergeInto_aiGrantor, mergeInto_aiGrantee]
    by_cases hgr : g = targ.aiGrantor ∧ r = targ.aiGrantee
    · obtain ⟨rfl, rfl⟩ := hgr
      simp
    · have hne (P : Prop) : ¬ (targ.aiGrantor = g ∧ targ.aiGrantee = r ∧ P) :=
        fun h => hgr ⟨h.1.symm, h.2.1.symm⟩
      rw [or_iff_right (hne _), or_iff_right (hne _), and_iff_left hgr]

theorem aiPrivs_ne_zero_of_mem_mergeDuplicates :
    ∀ b ∈ mergeDuplicates acl, b.aiPrivs ≠ 0#64 := by
  induction acl using mergeDuplicates.induct with
  | case1 =>
    rw [mergeDuplicates]
    exact nofun
  | case2 _ _ hzero ih =>
    rw [mergeDuplicates, if_pos hzero]
    exact ih
  | case3 _ _ hzero ih =>
    rw [mergeDuplicates, if_neg hzero]
    intro b hb
    rcases List.mem_cons.1 hb with rfl | hb
    · obtain ⟨i, hi⟩ := ne_zero_iff_getLsbD.1 hzero
      exact ne_zero_iff_getLsbD.2 ⟨i, (getLsbD_mergeInto _ _ _).2 (.inl hi)⟩
    · exact ih b hb

theorem distinct_mergeDuplicates (acl : Acl) : Distinct (mergeDuplicates acl) := by
  induction acl using mergeDuplicates.induct with
  | case1 =>
    rw [mergeDuplicates]
    exact List.Pairwise.nil
  | case2 _ _ hzero ih =>
    rw [mergeDuplicates, if_pos hzero]
    exact ih
  | case3 targ rest hzero ih =>
    rw [mergeDuplicates, if_neg hzero]
    refine distinct_cons.2 ⟨fun b hb => ?_, ih⟩
    -- a later item has a bit, which the duplicates of this one have not
    obtain ⟨i, hi⟩ := ne_zero_iff_getLsbD.1 (aiPrivs_ne_zero_of_mem_mergeDuplicates b hb)
    have hhas := (has_mergeInto targ rest).1 (has_mergeDuplicates.1 ⟨b, hb, rfl, rfl, hi⟩)
    by_contra hmatch
    rw [Bool.not_eq_false, aclitemMatch_iff, mergeInto_aiGrantee, mergeInto_aiGrantor] at hmatch
    exact hhas.2 ⟨hmatch.2.symm, hmatch.1.symm⟩

/-! ### The new owner -/

theorem has_map_rename :
    Has (acl.map (AclItem.rename oldOwnerId newOwnerId)) g r i ↔
      ∃ g₀ r₀, renameRole oldOwnerId newOwnerId g₀ = g ∧
        renameRole oldOwnerId newOwnerId r₀ = r ∧ Has acl g₀ r₀ i := by
  constructor
  · rintro ⟨item, hitem, rfl, rfl, hbit⟩
    obtain ⟨item, hmem, rfl⟩ := List.mem_map.1 hitem
    exact ⟨_, _, rfl, rfl, item, hmem, rfl, rfl, hbit⟩
  · rintro ⟨_, _, rfl, rfl, _, hitem, rfl, rfl, hbit⟩
    exact ⟨_, List.mem_map_of_mem hitem, rfl, rfl, hbit⟩

/-- The new owner has what the old owner had and what it had before itself. -/
theorem has_aclnewowner :
    Has (aclnewowner acl oldOwnerId newOwnerId) g r i ↔
      ∃ g₀ r₀, renameRole oldOwnerId newOwnerId g₀ = g ∧
        renameRole oldOwnerId newOwnerId r₀ = r ∧ Has acl g₀ r₀ i := by
  rw [← has_map_rename, aclnewowner]
  split_ifs
  · exact has_mergeDuplicates
  · rfl

/-- Replacing the old owner by a role that does not occur makes no two roles the same. -/
theorem renameRole_injective {x y : Oid}
    (hx : x = oldOwnerId ∨ x ≠ newOwnerId) (hy : y = oldOwnerId ∨ y ≠ newOwnerId)
    (h : renameRole oldOwnerId newOwnerId x = renameRole oldOwnerId newOwnerId y) : x = y := by
  unfold renameRole at h
  split_ifs at h with hxo hyo hyo
  · rw [hxo, hyo]
  · exact absurd h.symm (hy.resolve_left hyo)
  · exact absurd h (hx.resolve_left hxo)
  · exact h

theorem distinct_aclnewowner (h : Distinct acl) (oldOwnerId newOwnerId : Oid) :
    Distinct (aclnewowner acl oldOwnerId newOwnerId) := by
  rw [aclnewowner]
  split_ifs with hpresent
  · exact distinct_mergeDuplicates _
  · have hnot : ∀ item ∈ acl, (item.aiGrantor = oldOwnerId ∨ item.aiGrantor ≠ newOwnerId) ∧
        (item.aiGrantee = oldOwnerId ∨ item.aiGrantee ≠ newOwnerId) := by
      intro item hitem
      have hmentions : ¬ item.mentions oldOwnerId newOwnerId = true :=
        fun hcontra => hpresent (List.any_eq_true.2 ⟨item, hitem, hcontra⟩)
      rw [AclItem.mentions, Bool.or_eq_true, Bool.and_eq_true, Bool.and_eq_true, bne_iff_ne,
        bne_iff_ne, beq_iff_eq, beq_iff_eq] at hmentions
      tauto
    refine List.pairwise_map.2 (h.imp_of_mem fun {a b} ha hb hab => ?_)
    by_contra hmatch
    rw [Bool.not_eq_false, aclitemMatch_iff] at hmatch
    have hsame : aclitemMatch a b = true := aclitemMatch_iff.2
      ⟨renameRole_injective (hnot a ha).2 (hnot b hb).2 hmatch.1,
        renameRole_injective (hnot a ha).1 (hnot b hb).1 hmatch.2⟩
    rw [hab] at hsame
    exact Bool.false_ne_true hsame

end PgCutover.Privileges
