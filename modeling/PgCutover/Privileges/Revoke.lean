import PgCutover.Privileges.Update

/-!
# What a revoke leaves

`updateItem` changes the bits of one grantor and grantee and no others.
-/

namespace PgCutover.Privileges

open List

/-! ### One item -/

variable {acl : Acl} {ownerId : Oid} {item modAip : AclItem} {i : ℕ}

theorem not_has_of_unmatched (h : ∀ b ∈ acl, aclitemMatch item b = false) (i : ℕ) :
    ¬ Has acl item.aiGrantor item.aiGrantee i := by
  rintro ⟨b, hb, hgrantor, hgrantee, -⟩
  have hmatch : aclitemMatch item b = true := aclitemMatch_iff.2 ⟨hgrantee.symm, hgrantor.symm⟩
  rw [h b hb] at hmatch
  exact Bool.false_ne_true hmatch

theorem distinct_cons :
    Distinct (item :: acl) ↔ (∀ b ∈ acl, aclitemMatch item b = false) ∧ Distinct acl :=
  pairwise_cons

/-- The bits of an item, or none where it has been deleted. -/
theorem has_emit {rest : Acl} {g r : Oid} :
    Has (if item.aiPrivs = 0#64 then rest else item :: rest) g r i ↔
      Has (item :: rest) g r i := by
  split_ifs with hzero
  · rw [has_cons, hzero, BitVec.getLsbD_zero]
    simp
  · rfl

section UpdateItem

variable {change : AclMode → AclMode}

theorem getLsbD_updateItem_fst (h : Distinct acl) (i : ℕ) :
    (updateItem modAip change acl).1.getLsbD i = true ↔
      Has acl modAip.aiGrantor modAip.aiGrantee i := by
  induction acl with
  | nil => simp [updateItem]
  | cons item _ ih =>
    obtain ⟨hitem, hrest⟩ := distinct_cons.1 h
    rw [updateItem, has_cons]
    by_cases hmatch : aclitemMatch modAip item = true
    · obtain ⟨hgrantee, hgrantor⟩ := aclitemMatch_iff.1 hmatch
      rw [if_pos hmatch, hgrantee, hgrantor, or_iff_left (not_has_of_unmatched hitem i)]
      simp
    · rw [if_neg hmatch]
      have hne : ¬ (item.aiGrantor = modAip.aiGrantor ∧ item.aiGrantee = modAip.aiGrantee ∧
          item.aiPrivs.getLsbD i = true) :=
        fun ⟨hgrantor, hgrantee, _⟩ => hmatch (aclitemMatch_iff.2 ⟨hgrantee.symm, hgrantor.symm⟩)
      rw [or_iff_right hne]
      exact ih hrest

/-- The new bits of the grantor and grantee are the changed ones; all others stay. -/
theorem has_updateItem (h : Distinct acl) {g r : Oid} {i : ℕ} :
    Has (updateItem modAip change acl).2 g r i ↔
      if g = modAip.aiGrantor ∧ r = modAip.aiGrantee then
        (change (updateItem modAip change acl).1).getLsbD i = true
      else Has acl g r i := by
  induction acl with
  | nil =>
    have hemit := @has_emit { modAip with aiPrivs := change 0#64 } i [] g r
    rw [updateItem]
    refine hemit.trans ?_
    rw [has_cons, or_iff_left (not_has_nil _ _ _)]
    by_cases hgr : g = modAip.aiGrantor ∧ r = modAip.aiGrantee
    · simp [hgr.1, hgr.2]
    · rw [if_neg hgr, iff_false_intro (not_has_nil _ _ _), iff_false]
      exact fun h => hgr ⟨h.1.symm, h.2.1.symm⟩
  | cons item rest ih =>
    obtain ⟨hitem, hrest⟩ := distinct_cons.1 h
    rw [updateItem]
    by_cases hmatch : aclitemMatch modAip item = true
    · obtain ⟨hgrantee, hgrantor⟩ := aclitemMatch_iff.1 hmatch
      have hemit := @has_emit { item with aiPrivs := change item.aiPrivs } i rest g r
      rw [if_pos hmatch]
      refine hemit.trans ?_
      rw [has_cons, has_cons, hgrantee, hgrantor]
      by_cases hgr : g = item.aiGrantor ∧ r = item.aiGrantee
      · rw [if_pos hgr]
        obtain ⟨rfl, rfl⟩ := hgr
        rw [or_iff_left (not_has_of_unmatched hitem i)]
        simp
      · have hne (P : Prop) : ¬ (item.aiGrantor = g ∧ item.aiGrantee = r ∧ P) :=
          fun h => hgr ⟨h.1.symm, h.2.1.symm⟩
        rw [if_neg hgr, or_iff_right (hne _), or_iff_right (hne _)]
    · rw [if_neg hmatch]
      rw [has_cons, has_cons, ih hrest]
      split_ifs with hgr
      · obtain ⟨rfl, rfl⟩ := hgr
        rw [or_iff_right]
        exact fun h => hmatch (aclitemMatch_iff.2 ⟨h.2.1.symm, h.1.symm⟩)
      · rfl

theorem mem_updateItem {b : AclItem} (hb : b ∈ (updateItem modAip change acl).2) :
    aclitemMatch modAip b = true ∨ b ∈ acl := by
  induction acl with rw [updateItem] at hb
  | nil =>
    split_ifs at hb with hzero
    · exact absurd hb not_mem_nil
    · rw [mem_singleton] at hb
      exact .inl (aclitemMatch_iff.2 (by simp [hb]))
  | cons item _ ih =>
    by_cases hmatch : aclitemMatch modAip item = true
    · rw [if_pos hmatch] at hb
      simp only at hb
      split_ifs at hb with hzero
      · exact .inr (mem_cons_of_mem _ hb)
      · rcases mem_cons.1 hb with rfl | hb
        · exact .inl hmatch
        · exact .inr (mem_cons_of_mem _ hb)
    · rw [if_neg hmatch] at hb
      rcases mem_cons.1 hb with rfl | hb
      · exact .inr mem_cons_self
      · exact (ih hb).imp_right (mem_cons_of_mem _)

theorem distinct_updateItem (h : Distinct acl) : Distinct (updateItem modAip change acl).2 := by
  induction acl with
  | nil =>
    rw [updateItem]
    split_ifs
    · exact List.Pairwise.nil
    · exact pairwise_singleton _ _
  | cons item _ ih =>
    obtain ⟨hitem, hrest⟩ := distinct_cons.1 h
    rw [updateItem]
    by_cases hmatch : aclitemMatch modAip item = true
    · rw [if_pos hmatch]
      simp only
      split_ifs
      · exact hrest
      · exact distinct_cons.2 ⟨hitem, hrest⟩
    · rw [if_neg hmatch]
      refine distinct_cons.2 ⟨fun b hb => ?_, ih hrest⟩
      rcases mem_updateItem hb with hmod | hb
      · -- an item that matches the changed one does not match this one
        by_contra hcontra
        rw [Bool.not_eq_false] at hcontra
        apply hmatch
        obtain ⟨h1, h2⟩ := aclitemMatch_iff.1 hmod
        obtain ⟨h3, h4⟩ := aclitemMatch_iff.1 hcontra
        exact aclitemMatch_iff.2 ⟨h1.trans h3.symm, h2.trans h4.symm⟩
      · exact hitem b hb

end UpdateItem

/-! ### Support -/

/-- No grant options are held by everyone. -/
def NoPublicOption (acl : Acl) : Prop := ∀ g i, i < 32 → ¬ HasOption acl i g aclIdPublic

/-- A grant option that is not the owner's grant comes with the privilege. -/
def WithPrivs (ownerId : Oid) (acl : Acl) : Prop :=
  ∀ g r i, i < 32 → g ≠ ownerId → HasOption acl i g r → Has acl g r i

/-- Every privilege is granted by the owner or by a role that has the option to grant it,
with some exceptions. -/
def SupportedBut (ownerId : Oid) (except : Oid → ℕ → Prop) (acl : Acl) : Prop :=
  ∀ g r i, i < 32 → Has acl g r i → g = ownerId ∨ (∃ h, HasOption acl i h g) ∨ except g i

/-- What revoking makes of a list. `pending` are the exceptions it removes; `closed` says
that no privilege is revoked without its option. -/
structure Revoked (ownerId : Oid) (pending : Oid → ℕ → Prop) (closed : Prop) (acl acl' : Acl) :
    Prop where
  distinct : Distinct acl'
  sub : ∀ g r i, Has acl' g r i → Has acl g r i
  withPrivs : closed → WithPrivs ownerId acl → WithPrivs ownerId acl'
  supported : ∀ except, NoPublicOption acl →
    SupportedBut ownerId (fun g i => except g i ∨ pending g i) acl →
    SupportedBut ownerId except acl'

/-- The outcome of revoking: an error only where dependent privileges are to be kept. -/
def RevokeOutcome (behavior : DropBehavior) (P : Acl → Prop) : Except Failure Acl → Prop
  | .error e => behavior = .restrict ∧ e = dependentPrivileges
  | .ok acl' => P acl'

theorem NoPublicOption.mono {acl' : Acl} (h : NoPublicOption acl)
    (hsub : ∀ g r i, Has acl' g r i → Has acl g r i) : NoPublicOption acl' :=
  fun g i hi hhas => h g i hi (hsub _ _ _ hhas)

theorem SupportedBut.mono {except except' : Oid → ℕ → Prop} (h : SupportedBut ownerId except acl)
    (himp : ∀ g r i, i < 32 → Has acl g r i → except g i →
      g = ownerId ∨ (∃ h, HasOption acl i h g) ∨ except' g i) :
    SupportedBut ownerId except' acl := by
  intro g r i hi hhas
  rcases h g r i hi hhas with howner | hoption | hexcept
  · exact .inl howner
  · exact .inr (.inl hoption)
  · exact himp g r i hi hhas hexcept

theorem RevokeOutcome.mono {behavior : DropBehavior} {P Q : Acl → Prop}
    {result : Except Failure Acl} (h : RevokeOutcome behavior P result)
    (himp : ∀ acl, P acl → Q acl) : RevokeOutcome behavior Q result := by
  cases result with
  | error => exact h
  | ok acl => exact himp acl h

theorem RevokeOutcome.bind {behavior : DropBehavior} {P Q : Acl → Prop}
    {result : Except Failure Acl} {f : Acl → Except Failure Acl}
    (h : RevokeOutcome behavior P result) (hf : ∀ acl, P acl → RevokeOutcome behavior Q (f acl)) :
    RevokeOutcome behavior Q (result >>= f) := by
  cases result with
  | error => exact h
  | ok acl => exact hf acl h

/-- The bits a revoke takes from one grantee. -/
theorem getLsbD_del (oldRights rights : AclMode) (i : ℕ) :
    (ModeChange.del.apply oldRights rights).getLsbD i = true ↔
      oldRights.getLsbD i = true ∧ rights.getLsbD i = false := by
  rw [ModeChange.apply, BitVec.getLsbD_and, BitVec.getLsbD_not, Bool.and_eq_true,
    Bool.and_eq_true, decide_eq_true_eq, Bool.not_eq_true']
  constructor
  · exact fun h => ⟨h.1, h.2.2⟩
  · exact fun h => ⟨h.1, BitVec.lt_of_getLsbD h.1, h.2⟩

theorem getLsbD_and_not (a b : AclMode) (i : ℕ) :
    (a &&& ~~~b).getLsbD i = true ↔ a.getLsbD i = true ∧ b.getLsbD i = false :=
  getLsbD_del a b i

/-- The list right after rights are taken from one item. -/
abbrev deleted (acl : Acl) (modAip : AclItem) : Acl :=
  (updateItem modAip (ModeChange.del.apply · modAip.aiPrivs) acl).2

theorem has_deleted (h : Distinct acl) {g r : Oid} :
    Has (deleted acl modAip) g r i ↔ Has acl g r i ∧
      ¬ (g = modAip.aiGrantor ∧ r = modAip.aiGrantee ∧ modAip.aiPrivs.getLsbD i = true) := by
  rw [has_updateItem h]
  split_ifs with hgr
  · rw [getLsbD_del, getLsbD_updateItem_fst h, hgr.1, hgr.2]
    simp
  · constructor
    · exact fun hhas => ⟨hhas, fun hcontra => hgr ⟨hcontra.1, hcontra.2.1⟩⟩
    · exact fun hhas => hhas.1

/-- The grant options that the grantee of the item loses. -/
def lostOptions (acl : Acl) (modAip : AclItem) : AclMode :=
  let oldRights := (updateItem modAip (ModeChange.del.apply · modAip.aiPrivs) acl).1
  getGoptions oldRights &&& ~~~getGoptions (ModeChange.del.apply oldRights modAip.aiPrivs)

theorem getLsbD_lostOptions (h : Distinct acl) :
    (lostOptions acl modAip).getLsbD i = true ↔
      i < 32 ∧ HasOption acl i modAip.aiGrantor modAip.aiGrantee ∧
        modAip.aiPrivs.getLsbD (32 + i) = true := by
  rw [lostOptions, getLsbD_and_not, getLsbD_getGoptions, getLsbD_getGoptions, Bool.and_eq_true,
    decide_eq_true_eq, getLsbD_updateItem_fst h, Bool.and_eq_false_iff,
    decide_eq_false_iff_not, ← Bool.not_eq_true, getLsbD_del, getLsbD_updateItem_fst h]
  cases modAip.aiPrivs.getLsbD (32 + i)
  · simp
  · simp only [HasOption]
    tauto

theorem aclupdate_del_succ (fuel : ℕ) (acl : Acl) (modAip : AclItem) (ownerId : Oid)
    (behavior : DropBehavior) :
    aclupdate (fuel + 1) acl modAip .del ownerId behavior =
      if lostOptions acl modAip ≠ 0#64 then
        recursiveRevoke fuel (deleted acl modAip) modAip.aiGrantee (lostOptions acl modAip) ownerId
          behavior
      else .ok (deleted acl modAip) := by
  rw [aclupdate]
  rfl

/-- Taking rights from one item leaves as exceptions what its grantee granted with the
options it loses. -/
theorem revoked_deleted (h : Distinct acl) (modAip : AclItem)
    {except : Oid → ℕ → Prop} (hsupported : SupportedBut ownerId except acl) :
    SupportedBut ownerId (fun g i => except g i ∨
      (g = modAip.aiGrantee ∧ (lostOptions acl modAip).getLsbD i = true))
      (deleted acl modAip) := by
  intro g r i hi hhas
  rcases hsupported g r i hi ((has_deleted h).1 hhas).1 with howner | ⟨o, hoption⟩ | hexcept
  · exact .inl howner
  · by_cases hkept : HasOption (deleted acl modAip) i o g
    · exact .inr (.inl ⟨o, hkept⟩)
    · -- the option was lost by this very change
      rw [HasOption, has_deleted h] at hkept
      have hlost : o = modAip.aiGrantor ∧ g = modAip.aiGrantee ∧
          modAip.aiPrivs.getLsbD (32 + i) = true := by
        by_contra hcontra
        exact hkept ⟨hoption, hcontra⟩
      obtain ⟨rfl, rfl, hbit⟩ := hlost
      exact .inr (.inr (.inr ⟨rfl, (getLsbD_lostOptions h).2 ⟨hi, hoption, hbit⟩⟩))
  · exact .inr (.inr (.inl hexcept))

/-- No privilege of an item is revoked without its option, unless the owner granted it. -/
def ClosedRevoke (ownerId : Oid) (modAip : AclItem) : Prop :=
  modAip.aiGrantor ≠ ownerId →
    ∀ i, i < 32 → modAip.aiPrivs.getLsbD i = true → modAip.aiPrivs.getLsbD (32 + i) = true

theorem WithPrivs.deleted (hacl : WithPrivs ownerId acl)
    (h : Distinct acl) (hmod : ClosedRevoke ownerId modAip) :
    WithPrivs ownerId (deleted acl modAip) := by
  intro g r i hi howner hoption
  rw [HasOption, has_deleted h] at hoption
  rw [has_deleted h]
  refine ⟨hacl g r i hi howner hoption.1, ?_⟩
  rintro ⟨rfl, rfl, hbit⟩
  exact hoption.2 ⟨rfl, rfl, hmod howner i hi hbit⟩

theorem closedRevoke_privsGoptions (ownerId grantor grantee : Oid) (privs : AclMode) :
    ClosedRevoke ownerId
      { aiGrantor := grantor, aiGrantee := grantee, aiPrivs := privsGoptions privs privs } := by
  intro _ i hi hbit
  rw [getLsbD_privsGoptions_add _ _ hi]
  rwa [getLsbD_privsGoptions_of_lt _ _ hi] at hbit

/-- What the three functions of a revoke do with a given amount of fuel. -/
structure RevokeSpec (ownerId : Oid) (behavior : DropBehavior) (fuel : ℕ) : Prop where
  aclupdate : ∀ acl modAip, Distinct acl → 1 ≤ fuel → 3 * weight acl ≤ fuel →
    RevokeOutcome behavior (fun acl' =>
      Revoked ownerId (fun _ _ => False) (ClosedRevoke ownerId modAip) acl acl' ∧
        ∀ g r i, Has acl' g r i → Has (deleted acl modAip) g r i)
      (aclupdate fuel acl modAip .del ownerId behavior)
  recursiveRevoke : ∀ acl grantee revokePrivs, Distinct acl → 3 * weight acl + 2 ≤ fuel →
    RevokeOutcome behavior
      (Revoked ownerId (fun g i => g = grantee ∧ revokePrivs.getLsbD i = true) True acl)
      (recursiveRevoke fuel acl grantee revokePrivs ownerId behavior)
  revokeGranted : ∀ acl grantee revokePrivs, Distinct acl → 3 * weight acl + 1 ≤ fuel →
    RevokeOutcome behavior
      (Revoked ownerId (fun g i => g = grantee ∧ revokePrivs.getLsbD i = true) True acl)
      (revokeGranted fuel acl grantee revokePrivs ownerId behavior)

namespace RevokeSpec

variable {behavior : DropBehavior} {fuel : ℕ}

theorem aclupdate_succ (ih : RevokeSpec ownerId behavior fuel) (acl : Acl) (modAip : AclItem)
    (h : Distinct acl) (hfuel : 3 * weight acl ≤ fuel + 1) :
    RevokeOutcome behavior (fun acl' =>
      Revoked ownerId (fun _ _ => False) (ClosedRevoke ownerId modAip) acl acl' ∧
        ∀ g r i, Has acl' g r i → Has (deleted acl modAip) g r i)
      (Privileges.aclupdate (fuel + 1) acl modAip .del ownerId behavior) := by
  have hsub : ∀ g r i, Has (deleted acl modAip) g r i → Has acl g r i :=
    fun g r i hhas => ((has_deleted h).1 hhas).1
  rw [aclupdate_del_succ]
  by_cases hlost : lostOptions acl modAip = 0#64
  · rw [if_neg (not_not.2 hlost)]
    refine ⟨⟨distinct_updateItem h, hsub, fun hmod hacl => hacl.deleted h hmod, ?_⟩,
      fun _ _ _ => id⟩
    intro _ _ hsupported
    refine (revoked_deleted h modAip hsupported).mono fun g r i _ _ hexcept => ?_
    rw [hlost, BitVec.getLsbD_zero] at hexcept
    rcases hexcept with (hexcept | hcontra) | hcontra
    · exact .inr (.inr hexcept)
    · exact hcontra.elim
    · exact absurd hcontra.2 Bool.false_ne_true
  · rw [if_pos hlost]
    -- an option is lost, so the list has become smaller
    obtain ⟨i, hi⟩ := ne_zero_iff_getLsbD.1 hlost
    obtain ⟨-, hhas, hbit⟩ := (getLsbD_lostOptions h).1 hi
    have hlt : weight (deleted acl modAip) < weight acl :=
      weight_lt hsub hhas fun hcontra => ((has_deleted h).1 hcontra).2 ⟨rfl, rfl, hbit⟩
    refine (ih.recursiveRevoke (deleted acl modAip) modAip.aiGrantee (lostOptions acl modAip)
      (distinct_updateItem h) (by omega)).mono fun acl' hrevoked => ⟨?_, hrevoked.sub⟩
    refine ⟨hrevoked.distinct, fun g r i hhas => hsub g r i (hrevoked.sub g r i hhas),
      fun hmod hacl => hrevoked.withPrivs trivial (hacl.deleted h hmod), ?_⟩
    intro except hpublic hsupported
    refine hrevoked.supported except (hpublic.mono hsub) ?_
    refine (revoked_deleted h modAip hsupported).mono fun g r i _ _ hexcept => ?_
    rcases hexcept with (hexcept | hcontra) | hexcept
    · exact .inr (.inr (.inl hexcept))
    · exact hcontra.elim
    · exact .inr (.inr (.inr hexcept))

theorem recursiveRevoke_succ (ih : RevokeSpec ownerId behavior fuel) (acl : Acl) (grantee : Oid)
    (revokePrivs : AclMode) (h : Distinct acl) (hfuel : 3 * weight acl + 2 ≤ fuel + 1) :
    RevokeOutcome behavior
      (Revoked ownerId (fun g i => g = grantee ∧ revokePrivs.getLsbD i = true) True acl)
      (Privileges.recursiveRevoke (fuel + 1) acl grantee revokePrivs ownerId behavior) := by
  rw [Privileges.recursiveRevoke]
  by_cases howner : grantee = ownerId
  · rw [if_pos howner]
    refine ⟨h, fun _ _ _ => id, fun _ => id, fun except _ hsupported => ?_⟩
    refine hsupported.mono fun g r i _ _ hexcept => ?_
    rcases hexcept with hexcept | ⟨rfl, -⟩
    · exact .inr (.inr hexcept)
    · exact .inl howner
  rw [if_neg howner]
  simp only
  generalize hrest : revokePrivs &&& ~~~optionToPrivs
    (aclmask acl grantee ownerId (grantOptionFor revokePrivs) .all) = rest
  -- a privilege that is not in the rest is one whose option the grantee still has
  have hstill : ∀ except : Oid → ℕ → Prop, NoPublicOption acl →
      SupportedBut ownerId
        (fun g i => except g i ∨ g = grantee ∧ revokePrivs.getLsbD i = true) acl →
      SupportedBut ownerId (fun g i => except g i ∨ g = grantee ∧ rest.getLsbD i = true) acl := by
    intro _ hpublic hsupported
    refine hsupported.mono fun g r i hi _ hexcept => ?_
    rcases hexcept with hexcept | ⟨rfl, hbit⟩
    · exact .inr (.inr (.inl hexcept))
    · by_cases hkept : rest.getLsbD i = true
      · exact .inr (.inr (.inr ⟨rfl, hkept⟩))
      · rw [← hrest, getLsbD_and_not, not_and, Bool.not_eq_false] at hkept
        have hmask := hkept hbit
        rw [getLsbD_optionToPrivs, Bool.and_eq_true, aclmask_option] at hmask
        rcases hmask.1.2 with hcontra | ⟨o, hcontra | hoption⟩
        · exact absurd hcontra howner
        · exact absurd hcontra (hpublic o i hi)
        · exact .inr (.inl ⟨o, hoption⟩)
  by_cases hzero : rest = 0#64
  · rw [if_pos hzero]
    refine ⟨h, fun _ _ _ => id, fun _ => id, fun except hpublic hsupported => ?_⟩
    refine (hstill except hpublic hsupported).mono fun g r i _ _ hexcept => ?_
    rw [hzero, BitVec.getLsbD_zero] at hexcept
    rcases hexcept with hexcept | ⟨-, hcontra⟩
    · exact .inr (.inr hexcept)
    · exact absurd hcontra Bool.false_ne_true
  · rw [if_neg hzero]
    refine (ih.revokeGranted acl grantee rest h (by omega)).mono fun acl' hrevoked => ?_
    exact ⟨hrevoked.distinct, hrevoked.sub, hrevoked.withPrivs,
      fun except hpublic hsupported =>
        hrevoked.supported except hpublic (hstill except hpublic hsupported)⟩

theorem revokeGranted_succ (ih : RevokeSpec ownerId behavior fuel) (acl : Acl) (grantee : Oid)
    (revokePrivs : AclMode) (h : Distinct acl) (hfuel : 3 * weight acl + 1 ≤ fuel + 1) :
    RevokeOutcome behavior
      (Revoked ownerId (fun g i => g = grantee ∧ revokePrivs.getLsbD i = true) True acl)
      (Privileges.revokeGranted (fuel + 1) acl grantee revokePrivs ownerId behavior) := by
  rw [Privileges.revokeGranted]
  cases hfind : acl.find? fun aip =>
      aip.aiGrantor == grantee && (getPrivs aip.aiPrivs &&& revokePrivs != 0#64) with
  | none =>
    refine ⟨h, fun _ _ _ => id, fun _ => id, fun except _ hsupported => ?_⟩
    refine hsupported.mono fun g r i hi hhas hexcept => ?_
    rcases hexcept with hexcept | ⟨rfl, hbit⟩
    · exact .inr (.inr hexcept)
    · -- the grantee has granted none of these privileges any more
      exfalso
      obtain ⟨item, hitem, hgrantor, -, hpriv⟩ := hhas
      have hnot := List.find?_eq_none.1 hfind item hitem
      apply hnot
      rw [Bool.and_eq_true, beq_iff_eq, bne_iff_ne, ne_zero_iff_getLsbD]
      refine ⟨hgrantor, i, ?_⟩
      rw [BitVec.getLsbD_and, getLsbD_getPrivs, hpriv, hbit, decide_eq_true hi]
      rfl
  | some aip =>
    have hitem := mem_of_find?_eq_some hfind
    have hfound := List.find?_some hfind
    rw [Bool.and_eq_true, beq_iff_eq, bne_iff_ne, ne_zero_iff_getLsbD] at hfound
    obtain ⟨hgrantor, i, hi⟩ := hfound
    rw [BitVec.getLsbD_and, getLsbD_getPrivs, Bool.and_eq_true, Bool.and_eq_true,
      decide_eq_true_eq] at hi
    obtain ⟨⟨hpriv, hi⟩, hbit⟩ := hi
    have hhas : Has acl grantee aip.aiGrantee i := ⟨aip, hitem, hgrantor, rfl, hpriv⟩
    simp only
    by_cases hrestrict : behavior = .restrict
    · rw [if_pos hrestrict]
      exact ⟨hrestrict, rfl⟩
    rw [if_neg hrestrict]
    have hweight : 1 ≤ weight acl := Finset.card_pos.2 ⟨_, mem_grantSet.2 hhas⟩
    refine (ih.aclupdate acl _ h (by omega) (by omega)).bind fun acl₁ hstep => ?_
    obtain ⟨hrevoked, hdeleted⟩ := hstep
    -- the privilege that was found is gone
    have hlt : weight acl₁ < weight acl := weight_lt hrevoked.sub hhas fun hcontra =>
      ((has_deleted h).1 (hdeleted _ _ _ hcontra)).2
        ⟨rfl, rfl, (getLsbD_privsGoptions_of_lt _ _ hi).trans hbit⟩
    refine (ih.revokeGranted acl₁ grantee revokePrivs hrevoked.distinct (by omega)).mono
      fun acl' hrest => ?_
    refine ⟨hrest.distinct, fun g r i hhas => hrevoked.sub g r i (hrest.sub g r i hhas),
      fun _ hacl => hrest.withPrivs trivial
        (hrevoked.withPrivs (closedRevoke_privsGoptions _ _ _ _) hacl), ?_⟩
    intro except hpublic hsupported
    refine hrest.supported except (hpublic.mono hrevoked.sub) ?_
    refine hrevoked.supported _ hpublic (hsupported.mono fun g r i _ _ hexcept => ?_)
    exact .inr (.inr (.inl hexcept))

end RevokeSpec

theorem revokeSpec (ownerId : Oid) (behavior : DropBehavior) (fuel : ℕ) :
    RevokeSpec ownerId behavior fuel := by
  induction fuel with
  | zero =>
    exact ⟨fun _ _ _ h => absurd h (by omega), fun _ _ _ _ h => absurd h (by omega),
      fun _ _ _ _ h => absurd h (by omega)⟩
  | succ _ ih =>
    exact ⟨fun acl modAip h _ hfuel => ih.aclupdate_succ acl modAip h hfuel,
      ih.recursiveRevoke_succ, ih.revokeGranted_succ⟩

/-- **Revoking.** It ends, takes rights away only, and keeps every privilege supported. -/
theorem aclupdate_del (h : Distinct acl) (modAip : AclItem) (behavior : DropBehavior) :
    RevokeOutcome behavior
      (Revoked ownerId (fun _ _ => False) (ClosedRevoke ownerId modAip) acl)
      (aclupdate (fuelFor acl) acl modAip .del ownerId behavior) :=
  ((revokeSpec ownerId behavior (fuelFor acl)).aclupdate acl modAip h
    (by rw [fuelFor]; omega) (by rw [fuelFor]; omega)).mono fun _ h => h.1

/-- The loop of the circularity check ends, since each round takes an item away. -/
theorem zapOptions_ok (ownerId grantee : Oid) (fuel : ℕ) (h : Distinct acl)
    (hfuel : 3 * weight acl + 1 ≤ fuel) :
    ∃ acl', zapOptions fuel acl grantee ownerId = .ok acl' := by
  induction fuel generalizing acl with
  | zero => exact absurd hfuel (by omega)
  | succ fuel ih =>
    rw [zapOptions]
    cases hfind : acl.find? fun aip =>
        aip.aiGrantee == grantee && (getGoptions aip.aiPrivs != 0#64) with
    | none => exact ⟨acl, rfl⟩
    | some aip =>
      have hitem := mem_of_find?_eq_some hfind
      have hfound := List.find?_some hfind
      rw [Bool.and_eq_true, bne_iff_ne, ne_zero_iff_getLsbD] at hfound
      obtain ⟨-, i, hi⟩ := hfound
      rw [getLsbD_getGoptions, Bool.and_eq_true] at hi
      have hhas : Has acl aip.aiGrantor aip.aiGrantee (32 + i) := ⟨aip, hitem, rfl, rfl, hi.1⟩
      have hweight : 1 ≤ weight acl := Finset.card_pos.2 ⟨_, mem_grantSet.2 hhas⟩
      have hspec := (revokeSpec ownerId .cascade fuel).aclupdate acl aip h (by omega) (by omega)
      simp only
      cases hresult : aclupdate fuel acl aip .del ownerId .cascade with rw [hresult] at hspec
      | error =>
        exact absurd hspec.1 (by simp)
      | ok acl₁ =>
        obtain ⟨hrevoked, hdeleted⟩ := hspec
        have hlt : weight acl₁ < weight acl := weight_lt hrevoked.sub hhas fun hcontra =>
          ((has_deleted h).1 (hdeleted _ _ _ hcontra)).2 ⟨rfl, rfl, hi.1⟩
        exact ih hrevoked.distinct (by omega)

end PgCutover.Privileges
