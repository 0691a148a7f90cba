import Mathlib.Data.Finset.Card

/-!
# Access control items

An access control list is an array of items, each with the privileges that one role, the
grantor, has granted to another, the grantee. The lower half of the 64 privilege bits are
the privileges and the upper half the options to grant them. Roles are not members of each
other here: a role has the privileges of itself only.

What a list says is the relation `Has`: which bits which grantor has granted to which
grantee. `aclmask_option` reads the result of `aclmask` in these terms.
-/

namespace PgCutover.Privileges

open List

/-- Roles are known by their oid. -/
abbrev Oid := ℕ

/-- The grantee that stands for all roles. -/
def aclIdPublic : Oid := 0

/-- `AclMode`: a bitmask of privilege bits. -/
abbrev AclMode := BitVec 64

/-- The privileges that a grantor has granted to a grantee. -/
structure AclItem where
  aiGrantee : Oid
  aiGrantor : Oid
  aiPrivs : AclMode
  deriving DecidableEq, Repr

/-- An access control list, without the array header that `check_acl` checks. -/
abbrev Acl := List AclItem

/-! ### Privileges and grant options -/

/-- `ACLITEM_ALL_GOPTION_BITS`. -/
def allGoptionBits : AclMode := 0xFFFFFFFF#64 <<< 32

/-- `ACL_GRANT_OPTION_FOR`. -/
def grantOptionFor (privs : AclMode) : AclMode := (privs &&& 0xFFFFFFFF#64) <<< 32

/-- `ACL_OPTION_TO_PRIVS`. -/
def optionToPrivs (privs : AclMode) : AclMode := (privs >>> 32) &&& 0xFFFFFFFF#64

/-- `ACLITEM_GET_PRIVS`, of the rights of an item. -/
def getPrivs (rights : AclMode) : AclMode := rights &&& 0xFFFFFFFF#64

/-- `ACLITEM_GET_GOPTIONS`, of the rights of an item. -/
def getGoptions (rights : AclMode) : AclMode := (rights >>> 32) &&& 0xFFFFFFFF#64

/-- `ACLITEM_SET_PRIVS_GOPTIONS`: the rights it stores. -/
def privsGoptions (privs goptions : AclMode) : AclMode :=
  (privs &&& 0xFFFFFFFF#64) ||| ((goptions &&& 0xFFFFFFFF#64) <<< 32)

theorem getLsbD_low (i : ℕ) : (0xFFFFFFFF#64).getLsbD i = decide (i < 32) := by
  rw [BitVec.getLsbD_ofNat, show (0xFFFFFFFF : ℕ) = 2 ^ 32 - 1 from rfl,
    Nat.testBit_two_pow_sub_one]
  by_cases hi : i < 32
  · simp [hi, show i < 64 by omega]
  · simp [hi]

@[simp] theorem getLsbD_getPrivs (rights : AclMode) (i : ℕ) :
    (getPrivs rights).getLsbD i = (rights.getLsbD i && decide (i < 32)) := by
  rw [getPrivs, BitVec.getLsbD_and, getLsbD_low]

@[simp] theorem getLsbD_getGoptions (rights : AclMode) (i : ℕ) :
    (getGoptions rights).getLsbD i = (rights.getLsbD (32 + i) && decide (i < 32)) := by
  rw [getGoptions, BitVec.getLsbD_and, getLsbD_low, BitVec.getLsbD_ushiftRight]

@[simp] theorem getLsbD_optionToPrivs (rights : AclMode) (i : ℕ) :
    (optionToPrivs rights).getLsbD i = (rights.getLsbD (32 + i) && decide (i < 32)) :=
  getLsbD_getGoptions rights i

variable (privs : AclMode)

theorem getLsbD_grantOptionFor (i : ℕ) :
    (grantOptionFor privs).getLsbD i = (decide (32 ≤ i) && privs.getLsbD (i - 32) &&
      decide (i < 64)) := by
  rw [grantOptionFor, BitVec.getLsbD_shiftLeft, BitVec.getLsbD_and, getLsbD_low]
  by_cases hlow : i < 32
  · simp [hlow]
  · by_cases hhigh : i < 64
    · simp [hhigh, show 32 ≤ i by omega, show i - 32 < 32 by omega]
    · simp [hhigh]

@[simp] theorem getLsbD_grantOptionFor_add (i : ℕ) :
    (grantOptionFor privs).getLsbD (32 + i) = (privs.getLsbD i && decide (i < 32)) := by
  rw [getLsbD_grantOptionFor, Nat.add_sub_cancel_left]
  by_cases hi : i < 32
  · simp [hi, show 32 + i < 64 by omega]
  · simp [hi, show ¬ 32 + i < 64 by omega]

variable {i : ℕ} {acl : Acl} {g r : Oid}

@[simp] theorem getLsbD_privsGoptions_of_lt (goptions : AclMode) (hi : i < 32) :
    (privsGoptions privs goptions).getLsbD i = privs.getLsbD i := by
  change (getPrivs privs ||| grantOptionFor goptions).getLsbD i = _
  rw [BitVec.getLsbD_or, getLsbD_getPrivs, getLsbD_grantOptionFor]
  simp [hi]

@[simp] theorem getLsbD_privsGoptions_add (goptions : AclMode) (hi : i < 32) :
    (privsGoptions privs goptions).getLsbD (32 + i) = goptions.getLsbD i := by
  change (getPrivs privs ||| grantOptionFor goptions).getLsbD (32 + i) = _
  rw [BitVec.getLsbD_or, getLsbD_getPrivs, getLsbD_grantOptionFor_add]
  simp [hi]

theorem eq_zero_iff_getLsbD {mode : AclMode} : mode = 0#64 ↔ ∀ i, mode.getLsbD i = false := by
  constructor
  · rintro rfl i
    exact BitVec.getLsbD_zero
  · intro h
    apply BitVec.eq_of_getLsbD_eq
    intro i _
    rw [h i, BitVec.getLsbD_zero]

theorem ne_zero_iff_getLsbD {mode : AclMode} : mode ≠ 0#64 ↔ ∃ i, mode.getLsbD i = true := by
  rw [ne_eq, eq_zero_iff_getLsbD, not_forall]
  simp only [Bool.not_eq_false]

/-! ### What a list grants -/

/-- `aclitem_match`: the privileges are ignored. -/
def aclitemMatch (a1 a2 : AclItem) : Bool :=
  a1.aiGrantee == a2.aiGrantee && a1.aiGrantor == a2.aiGrantor

theorem aclitemMatch_iff {a1 a2 : AclItem} :
    aclitemMatch a1 a2 = true ↔ a1.aiGrantee = a2.aiGrantee ∧ a1.aiGrantor = a2.aiGrantor := by
  rw [aclitemMatch, Bool.and_eq_true, beq_iff_eq, beq_iff_eq]

/-- The list has the bit from the grantor for the grantee. -/
def Has (acl : Acl) (grantor grantee : Oid) (i : ℕ) : Prop :=
  ∃ item ∈ acl, item.aiGrantor = grantor ∧ item.aiGrantee = grantee ∧
    item.aiPrivs.getLsbD i = true

/-- The option to grant privilege `i` that one role has granted to another. -/
def HasOption (acl : Acl) (i : ℕ) (grantor grantee : Oid) : Prop :=
  Has acl grantor grantee (32 + i)

/-- No two items are for the same grantor and grantee. -/
def Distinct (acl : Acl) : Prop := acl.Pairwise fun a b => aclitemMatch a b = false

@[simp] theorem not_has_nil (g r : Oid) (i : ℕ) : ¬ Has [] g r i := by
  rintro ⟨_, hitem, -⟩
  exact absurd hitem not_mem_nil

theorem has_cons {item : AclItem} :
    Has (item :: acl) g r i ↔
      (item.aiGrantor = g ∧ item.aiGrantee = r ∧ item.aiPrivs.getLsbD i = true) ∨
        Has acl g r i := by
  simp [Has]

/-- All bits that the list has. -/
def grantSet (acl : Acl) : Finset (Oid × Oid × ℕ) :=
  (acl.flatMap fun item => ((List.range 64).filter (item.aiPrivs.getLsbD ·)).map
    fun i => (item.aiGrantor, item.aiGrantee, i)).toFinset

theorem mem_grantSet : (g, r, i) ∈ grantSet acl ↔ Has acl g r i := by
  unfold grantSet
  rw [mem_toFinset, mem_flatMap]
  constructor
  · rintro ⟨item, hitem, hmem⟩
    rw [mem_map] at hmem
    obtain ⟨j, hj, heq⟩ := hmem
    cases heq
    exact ⟨item, hitem, rfl, rfl, (mem_filter.1 hj).2⟩
  · rintro ⟨item, hitem, rfl, rfl, hbit⟩
    refine ⟨item, hitem, mem_map.2 ⟨i, mem_filter.2 ⟨?_, hbit⟩, rfl⟩⟩
    exact mem_range.2 (BitVec.lt_of_getLsbD hbit)

/-- How much a list grants. -/
def weight (acl : Acl) : ℕ := (grantSet acl).card

theorem weight_lt {acl' : Acl} (h : ∀ g r i, Has acl' g r i → Has acl g r i) (hhas : Has acl g r i)
    (hnot : ¬ Has acl' g r i) : weight acl' < weight acl := by
  apply Finset.card_lt_card
  refine Finset.ssubset_iff_subset_ne.2 ⟨?_, fun heq => hnot ?_⟩
  · rintro ⟨g, r, i⟩ hmem
    exact mem_grantSet.2 (h g r i (mem_grantSet.1 hmem))
  · rw [← mem_grantSet, heq]
    exact mem_grantSet.2 hhas

/-! ### Masks -/

/-- `has_privs_of_role` for roles that are not members of each other, none of them a
superuser. -/
def hasPrivsOfRole (member role : Oid) : Bool := member == role

/-- Whether all bits of a mask are asked for or any. -/
inductive AclMaskHow
  | all
  | any
  deriving DecidableEq, Repr

/-- Whether the loops of `aclmask` can stop. -/
def AclMaskHow.done : AclMaskHow → AclMode → AclMode → Bool
  | all, mask, result => result == mask
  | any, _, result => result != 0#64

/-- A loop of `aclmask` over the items that `take` selects, from the privileges found so
far. The flag says that the function returns from inside of the loop. -/
def aclmaskLoop (take : AclItem → AclMode → Bool) (mask : AclMode) (how : AclMaskHow) :
    Acl → AclMode → AclMode × Bool
  | [], result => (result, false)
  | aidata :: rest, result =>
    if take aidata result then
      let result := result ||| (aidata.aiPrivs &&& mask)
      if how.done mask result then (result, true) else aclmaskLoop take mask how rest result
    else aclmaskLoop take mask how rest result

/-- An item for the role itself or for everyone. -/
def grantedDirectly (roleid : Oid) (aidata : AclItem) : Bool :=
  aidata.aiGrantee == aclIdPublic || aidata.aiGrantee == roleid

/-- `aclmask`: the privileges of the mask that the role holds. -/
def aclmask (acl : Acl) (roleid ownerId : Oid) (mask : AclMode) (how : AclMaskHow) : AclMode :=
  if mask = 0#64 then 0#64
  else
    -- the owner always implicitly has all grant options
    let owns := (mask &&& allGoptionBits != 0#64) && hasPrivsOfRole roleid ownerId
    let result := if owns then mask &&& allGoptionBits else 0#64
    if owns && how.done mask result then result
    else
      let (result, returned) :=
        aclmaskLoop (fun aidata _ => grantedDirectly roleid aidata) mask how acl result
      if returned then result
      else
        -- privileges granted indirectly, through role memberships
        (aclmaskLoop (fun aidata result => !grantedDirectly roleid aidata &&
          (aidata.aiPrivs &&& (mask &&& ~~~result) != 0#64) &&
          hasPrivsOfRole roleid aidata.aiGrantee) mask how acl result).1

/-- Without role memberships the second loop finds nothing. -/
theorem aclmaskLoop_of_not_take {take : AclItem → AclMode → Bool} {mask : AclMode}
    {how : AclMaskHow} (acl : Acl) (result : AclMode)
    (h : ∀ item result, take item result = false) :
    aclmaskLoop take mask how acl result = (result, false) := by
  induction acl with
  | nil => rfl
  | cons _ _ ih => rw [aclmaskLoop, h, if_neg Bool.false_ne_true, ih]

/-- The first loop collects the bits of the selected items; stopping early loses none. -/
theorem getLsbD_aclmaskLoop (take : AclItem → Bool) (mask : AclMode) (acl : Acl)
    {result : AclMode} (hsub : ∀ i, result.getLsbD i = true → mask.getLsbD i = true) (i : ℕ) :
    (aclmaskLoop (fun aidata _ => take aidata) mask .all acl result).1.getLsbD i = true ↔
      result.getLsbD i = true ∨
        mask.getLsbD i = true ∧ ∃ item ∈ acl, take item = true ∧ item.aiPrivs.getLsbD i = true := by
  induction acl generalizing result with
  | nil => simp [aclmaskLoop]
  | cons aidata _ ih =>
    rw [aclmaskLoop]
    by_cases htake : take aidata = true
    · have hsub' : ∀ i, (result ||| (aidata.aiPrivs &&& mask)).getLsbD i = true →
          mask.getLsbD i = true := by
        intro j hj
        rw [BitVec.getLsbD_or, BitVec.getLsbD_and, Bool.or_eq_true, Bool.and_eq_true] at hj
        exact hj.elim (hsub j) (·.2)
      have hbit : (result ||| (aidata.aiPrivs &&& mask)).getLsbD i = true ↔
          result.getLsbD i = true ∨ mask.getLsbD i = true ∧ aidata.aiPrivs.getLsbD i = true := by
        rw [BitVec.getLsbD_or, BitVec.getLsbD_and, Bool.or_eq_true, Bool.and_eq_true, and_comm]
      simp only [htake, if_true, exists_mem_cons_iff]
      by_cases hdone : AclMaskHow.done .all mask (result ||| (aidata.aiPrivs &&& mask)) = true
      · -- the whole mask is found, by this item and those before it
        rw [if_pos hdone]
        rw [AclMaskHow.done, beq_iff_eq] at hdone
        rw [hbit]
        rw [hdone] at hbit
        constructor
        · tauto
        · rintro (hold | ⟨hmask, -⟩)
          · exact .inl hold
          · exact hbit.1 hmask
      · rw [if_neg hdone, ih hsub', hbit]
        tauto
    · simp only [htake, Bool.false_eq_true, if_false, exists_mem_cons_iff, false_and,
        false_or]
      exact ih hsub

theorem grantOptionFor_and_allGoptionBits :
    grantOptionFor privs &&& allGoptionBits = grantOptionFor privs := by
  have hall (i : ℕ) : allGoptionBits.getLsbD i =
      (decide (i < 64) && !decide (i < 32) && decide (i - 32 < 32)) := by
    rw [allGoptionBits, BitVec.getLsbD_shiftLeft, getLsbD_low]
  apply BitVec.eq_of_getLsbD_eq
  intro i hi
  rw [BitVec.getLsbD_and, hall, getLsbD_grantOptionFor]
  by_cases hlow : 32 ≤ i
  · simp [hi, hlow, show ¬ i < 32 by omega, show i - 32 < 32 by omega]
  · simp [hlow]

theorem exists_grantedDirectly {roleid : Oid} :
    (∃ item ∈ acl, grantedDirectly roleid item = true ∧ item.aiPrivs.getLsbD i = true) ↔
      ∃ g, Has acl g aclIdPublic i ∨ Has acl g roleid i := by
  constructor
  · rintro ⟨item, hitem, hdirect, hbit⟩
    rw [grantedDirectly, Bool.or_eq_true, beq_iff_eq, beq_iff_eq] at hdirect
    exact ⟨item.aiGrantor, hdirect.imp (fun h => ⟨item, hitem, rfl, h, hbit⟩)
      (fun h => ⟨item, hitem, rfl, h, hbit⟩)⟩
  · rintro ⟨g, ⟨item, hitem, -, hgrantee, hbit⟩ | ⟨item, hitem, -, hgrantee, hbit⟩⟩ <;>
      exact ⟨item, hitem, by simp [grantedDirectly, hgrantee], hbit⟩

/-- **The grant options of a role.** The owner has them all, and others those granted to
them or to everyone. -/
theorem aclmask_option (acl : Acl) (roleid ownerId : Oid) (privs : AclMode) (i : ℕ) :
    (aclmask acl roleid ownerId (grantOptionFor privs) .all).getLsbD (32 + i) = true ↔
      (privs.getLsbD i = true ∧ i < 32) ∧
        (roleid = ownerId ∨ ∃ g, HasOption acl i g aclIdPublic ∨ HasOption acl i g roleid) := by
  have hmask :
      (grantOptionFor privs).getLsbD (32 + i) = true ↔ privs.getLsbD i = true ∧ i < 32 := by
    rw [getLsbD_grantOptionFor_add, Bool.and_eq_true, decide_eq_true_eq]
  rw [aclmask.eq_def, grantOptionFor_and_allGoptionBits]
  by_cases hzero : grantOptionFor privs = 0#64
  · rw [hzero, BitVec.getLsbD_zero] at hmask
    rw [if_pos hzero, ← hmask]
    simp
  have hne : (grantOptionFor privs != 0#64) = true := bne_iff_ne.2 hzero
  rw [if_neg hzero]
  by_cases howner : roleid = ownerId
  · simp only [hne, hasPrivsOfRole, howner, BEq.rfl, Bool.and_self, if_true, AclMaskHow.done,
      true_or, and_true]
    exact hmask
  · have hother : hasPrivsOfRole roleid ownerId = false := beq_eq_false_iff_ne.2 howner
    have hfirst := @getLsbD_aclmaskLoop (grantedDirectly roleid) (grantOptionFor privs) acl 0#64
      (by simp) (32 + i)
    have hsecond : ∀ (item : AclItem) (result : AclMode), (!grantedDirectly roleid item &&
        (item.aiPrivs &&& (grantOptionFor privs &&& ~~~result) != 0#64) &&
        hasPrivsOfRole roleid item.aiGrantee) = false := by
      intro item _
      by_cases hrole : item.aiGrantee = roleid
      · simp [grantedDirectly, hrole]
      · simp [hasPrivsOfRole, Ne.symm hrole]
    simp only [hother, Bool.and_false, Bool.false_eq_true, if_false, Bool.false_and, howner,
      false_or, aclmaskLoop_of_not_take _ _ hsecond]
    rw [exists_grantedDirectly, BitVec.getLsbD_zero, hmask] at hfirst
    simp only [Bool.false_eq_true, false_or] at hfirst
    rw [ite_self]
    exact hfirst

end PgCutover.Privileges
