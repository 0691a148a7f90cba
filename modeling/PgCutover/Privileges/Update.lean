import PgCutover.Privileges.Item

/-!
# Granting, revoking and changing the owner

`aclupdate` changes one item of a list.
-/

namespace PgCutover.Privileges

open List

/-- `ACL_MODECHG_ADD`, `ACL_MODECHG_DEL` and `ACL_MODECHG_EQL`. -/
inductive ModeChange
  | add
  | del
  | eql
  deriving DecidableEq, Repr

/-- The new bits of an item. -/
def ModeChange.apply : ModeChange → AclMode → AclMode → AclMode
  | add, oldRights, rights => oldRights ||| rights
  | del, oldRights, rights => oldRights &&& ~~~rights
  | eql, _, rights => rights

/-- Whether dependent privileges are revoked too. -/
inductive DropBehavior
  | restrict
  | cascade
  deriving DecidableEq, Repr

/-- The error codes of the checks. -/
inductive ErrCode
  | invalidGrantOperation
  | dependentObjectsStillExist
  deriving DecidableEq, Repr

/-- What `ereport` is given. -/
structure ErrorReport where
  errcode : ErrCode
  errmsg : String
  errhint : Option String := none
  deriving DecidableEq, Repr

/-- An operation fails with an error, or the recursion has run out of fuel. -/
inductive Failure
  | ereport (report : ErrorReport)
  | outOfFuel
  deriving DecidableEq, Repr

/-- The error of `check_circularity`. -/
def grantedBack : Failure :=
  .ereport { errcode := .invalidGrantOperation
             errmsg := "grant options cannot be granted back to your own grantor" }

/-- The error of `recursive_revoke`. -/
def dependentPrivileges : Failure :=
  .ereport { errcode := .dependentObjectsStillExist
             errmsg := "dependent privileges exist"
             errhint := some "Use CASCADE to revoke them too." }

/-- Change the rights of the first item for the grantee and grantor of `modAip`, or of a
new one at the end, and delete the item if it has no rights left. The old rights are
returned too. -/
def updateItem (modAip : AclItem) (change : AclMode → AclMode) : Acl → AclMode × Acl
  | [] =>
    let newRights := change 0#64
    (0#64, if newRights = 0#64 then [] else [{ modAip with aiPrivs := newRights }])
  | item :: rest =>
    if aclitemMatch modAip item then
      let newRights := change item.aiPrivs
      (item.aiPrivs,
        if newRights = 0#64 then rest else { item with aiPrivs := newRights } :: rest)
    else
      let (oldRights, rest) := updateItem modAip change rest
      (oldRights, item :: rest)

mutual

/-- `aclupdate`. -/
def aclupdate : ℕ → Acl → AclItem → ModeChange → Oid → DropBehavior → Except Failure Acl
  | 0, _, _, _, _, _ => .error .outOfFuel
  | fuel + 1, oldAcl, modAip, modechg, ownerId, behavior => do
    if modechg ≠ .del ∧ getGoptions modAip.aiPrivs ≠ 0#64 then
      checkCircularity fuel oldAcl modAip ownerId
    let (oldRights, newAcl) := updateItem modAip (modechg.apply · modAip.aiPrivs) oldAcl
    let newRights := modechg.apply oldRights modAip.aiPrivs
    -- remove abandoned privileges
    let lost := getGoptions oldRights &&& ~~~getGoptions newRights
    if lost ≠ 0#64 then recursiveRevoke fuel newAcl modAip.aiGrantee lost ownerId behavior
    else .ok newAcl

/-- `recursive_revoke`, up to the loop. -/
def recursiveRevoke : ℕ → Acl → Oid → AclMode → Oid → DropBehavior → Except Failure Acl
  | 0, _, _, _, _, _ => .error .outOfFuel
  | fuel + 1, acl, grantee, revokePrivs, ownerId, behavior =>
    -- the owner can never truly lose grant options
    if grantee = ownerId then .ok acl
    else
      let stillHas := aclmask acl grantee ownerId (grantOptionFor revokePrivs) .all
      let revokePrivs := revokePrivs &&& ~~~optionToPrivs stillHas
      if revokePrivs = 0#64 then .ok acl
      else revokeGranted fuel acl grantee revokePrivs ownerId behavior

/-- The loop of `recursive_revoke`, which starts again after each change. -/
def revokeGranted : ℕ → Acl → Oid → AclMode → Oid → DropBehavior → Except Failure Acl
  | 0, _, _, _, _, _ => .error .outOfFuel
  | fuel + 1, acl, grantee, revokePrivs, ownerId, behavior =>
    match acl.find? fun aip =>
        aip.aiGrantor == grantee && (getPrivs aip.aiPrivs &&& revokePrivs != 0#64) with
    | none => .ok acl
    | some aip =>
      if behavior = .restrict then .error dependentPrivileges
      else do
        let modAcl : AclItem :=
          { aiGrantor := grantee
            aiGrantee := aip.aiGrantee
            aiPrivs := privsGoptions revokePrivs revokePrivs }
        let newAcl ← aclupdate fuel acl modAcl .del ownerId behavior
        revokeGranted fuel newAcl grantee revokePrivs ownerId behavior

/-- `check_circularity`. -/
def checkCircularity : ℕ → Acl → AclItem → Oid → Except Failure Unit
  | 0, _, _, _ => .error .outOfFuel
  | fuel + 1, oldAcl, modAip, ownerId =>
    -- the owner always has grant options
    if modAip.aiGrantor = ownerId then .ok ()
    else do
      let acl ← zapOptions fuel oldAcl modAip.aiGrantee ownerId
      let goptions := getGoptions modAip.aiPrivs
      let ownPrivs := aclmask acl modAip.aiGrantor ownerId (grantOptionFor goptions) .all
      let ownPrivs := optionToPrivs ownPrivs
      if goptions &&& ~~~ownPrivs ≠ 0#64 then .error grantedBack
      else .ok ()

/-- The loop of `check_circularity`: zap all grant options of the grantee and what depends
on them. -/
def zapOptions : ℕ → Acl → Oid → Oid → Except Failure Acl
  | 0, _, _, _ => .error .outOfFuel
  | fuel + 1, acl, grantee, ownerId =>
    match acl.find? fun aip =>
        aip.aiGrantee == grantee && (getGoptions aip.aiPrivs != 0#64) with
    | none => .ok acl
    | some aip => do
      let newAcl ← aclupdate fuel acl aip .del ownerId .cascade
      zapOptions fuel newAcl grantee ownerId

end

/-- Enough fuel for an update that adds or removes rights. -/
def fuelFor (acl : Acl) : ℕ := 3 * weight acl + 3

/-! ### A new owner -/

/-- Merge the duplicates of an item among those to its right. They stay in place without
rights, and are skipped from then on. -/
def mergeInto : AclItem → Acl → AclItem × Acl
  | targ, [] => (targ, [])
  | targ, src :: rest =>
    if src.aiPrivs ≠ 0#64 ∧ aclitemMatch targ src then
      let (targ, rest) := mergeInto { targ with aiPrivs := targ.aiPrivs ||| src.aiPrivs } rest
      (targ, { src with aiPrivs := 0#64 } :: rest)
    else
      let (targ, rest) := mergeInto targ rest
      (targ, src :: rest)

@[simp] theorem length_mergeInto (targ : AclItem) (acl : Acl) :
    (mergeInto targ acl).2.length = acl.length := by
  induction acl generalizing targ with
  | nil => rfl
  | cons _ _ ih =>
    rw [mergeInto]
    split_ifs <;> simp [ih]

/-- Merge all duplicates and drop the items without rights. -/
def mergeDuplicates : Acl → Acl
  | [] => []
  | targ :: rest =>
    if targ.aiPrivs = 0#64 then mergeDuplicates rest
    else (mergeInto targ rest).1 :: mergeDuplicates (mergeInto targ rest).2
termination_by acl => acl.length

/-- One role in place of another. -/
def renameRole (oldOwnerId newOwnerId role : Oid) : Oid :=
  if role = oldOwnerId then newOwnerId else role

/-- An item with the role replaced. -/
def AclItem.rename (oldOwnerId newOwnerId : Oid) (item : AclItem) : AclItem :=
  { item with
    aiGrantor := renameRole oldOwnerId newOwnerId item.aiGrantor
    aiGrantee := renameRole oldOwnerId newOwnerId item.aiGrantee }

/-- `newpresent`: the new owner is already mentioned by the item. -/
def AclItem.mentions (oldOwnerId newOwnerId : Oid) (item : AclItem) : Bool :=
  (item.aiGrantor != oldOwnerId && item.aiGrantor == newOwnerId) ||
    (item.aiGrantee != oldOwnerId && item.aiGrantee == newOwnerId)

/-- `aclnewowner`. -/
def aclnewowner (oldAcl : Acl) (oldOwnerId newOwnerId : Oid) : Acl :=
  let newAcl := oldAcl.map (AclItem.rename oldOwnerId newOwnerId)
  if oldAcl.any (AclItem.mentions oldOwnerId newOwnerId) then mergeDuplicates newAcl else newAcl

end PgCutover.Privileges
