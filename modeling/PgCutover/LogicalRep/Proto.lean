import PgCutover.LogicalRep.PqFormat

/-!
# Relation and change messages of logical replication

The writers send the columns of a table that are neither dropped nor generated and are in the column
list, each time by their own loop over the table's attributes; the readers know columns by position
only.
-/

namespace PgCutover.LogicalRep

open List

open Lib (Reader readMany)
open Transam (TransactionId transactionIdIsValid)

/-! ### Tables -/

/-- A column of a table. -/
structure Attribute where
  attname : CString
  attnum : ℕ
  atttypid : UInt32
  atttypmod : UInt32
  attlen : ℤ
  attisdropped : Bool
  attgenerated : Bool

/-- A table: its columns have different names and there are no more of them than a heap table can
have. -/
structure Relation where
  relid : UInt32
  relnamespace : UInt32
  relname : CString
  relreplident : UInt8
  attrs : List Attribute
  /-- `RelationGetIdentityKeyBitmap`, by column number. -/
  identityKey : ℕ → Bool
  names_nodup : (attrs.map Attribute.attname).Nodup
  natts_le : attrs.length ≤ 1600

/-- The functions of a type. -/
structure TypeForm (Datum : Type) where
  typsend : Option (Datum → ByteString)
  typoutput : Datum → ByteString

/-- What the writers look up. -/
structure Catalog (Datum : Type) where
  types : UInt32 → Option (TypeForm Datum)
  namespaceName : UInt32 → Option CString
  /-- `VARATT_IS_EXTERNAL_ONDISK`. -/
  externalOndisk : Datum → Bool

/-- The values of a row of a table, null or not. -/
structure Slot (Datum : Type) (rel : Relation) where
  values : List (Option Datum)
  length_eq : values.length = rel.attrs.length

/-- The oid of the namespace whose name is not sent. -/
def pgCatalogNamespace : UInt32 := 11

/-- `REPLICA_IDENTITY_FULL`. -/
def replicaIdentityFull : UInt8 := 'f'.toUInt8

/-- The flag of a column of the replica identity. -/
def isReplicaIdentity : UInt8 := 1

/-- The column list of a publication, `none` for all columns. -/
abbrev Columns := Option (ℕ → Bool)

/-- `column_in_column_list`. -/
def columnInColumnList (attnum : ℕ) (columns : Columns) : Bool :=
  match columns with
  | none => true
  | some members => members attnum

/-! ### Writing -/

section Write

variable {Datum : Type} (cat : Catalog Datum)

/-- The loop that counts the columns to be sent, in a `uint16`. -/
def nliveatts (columns : Columns) : List Attribute → UInt16 → UInt16
  | [], n => n
  | att :: attrs, n =>
    if att.attisdropped || att.attgenerated then nliveatts columns attrs n
    else if !columnInColumnList att.attnum columns then nliveatts columns attrs n
    else nliveatts columns attrs (n + 1)

/-- One column of a tuple: null, unchanged, in binary form or as text. -/
def writeColumn (binary : Bool) (att : Attribute) (value : Option Datum) :
    Except String (List UInt8) :=
  match value with
  | none => .ok ['n'.toUInt8]
  | some datum =>
    if att.attlen = -1 ∧ cat.externalOndisk datum then .ok ['u'.toUInt8]
    else
      match cat.types att.atttypid with
      | none => .error s!"cache lookup failed for type {att.atttypid}"
      | some typclass =>
        match binary, typclass.typsend with
        | true, some typsend => .ok ('b'.toUInt8 :: pqSendcounted (typsend datum))
        | _, _ => .ok ('t'.toUInt8 :: pqSendcounted (typclass.typoutput datum))

/-- The loop of `logicalrep_write_tuple` over the attributes. -/
def writeValues (binary : Bool) (columns : Columns) :
    List (Attribute × Option Datum) → Except String (List UInt8)
  | [] => .ok []
  | (att, value) :: rest =>
    if att.attisdropped || att.attgenerated then writeValues binary columns rest
    else if !columnInColumnList att.attnum columns then writeValues binary columns rest
    else do
      let column ← writeColumn cat binary att value
      let columns ← writeValues binary columns rest
      return column ++ columns

/-- `logicalrep_write_tuple`. -/
def writeTuple (rel : Relation) (slot : Slot Datum rel) (binary : Bool) (columns : Columns) :
    Except String (List UInt8) := do
  let values ← writeValues cat binary columns (rel.attrs.zip slot.values)
  return pqSendint16 (nliveatts columns rel.attrs 0) ++ values

/-- The flag of a column of the replica identity. -/
def attrFlags (rel : Relation) (att : Attribute) : UInt8 :=
  if rel.relreplident = replicaIdentityFull ∨ rel.identityKey att.attnum then isReplicaIdentity
  else 0

/-- The second loop of `logicalrep_write_attrs`. -/
def writeAttrsLoop (rel : Relation) (columns : Columns) : List Attribute → List UInt8
  | [] => []
  | att :: attrs =>
    if att.attisdropped || att.attgenerated then writeAttrsLoop rel columns attrs
    else if !columnInColumnList att.attnum columns then writeAttrsLoop rel columns attrs
    else
      [attrFlags rel att] ++ pqSendstring att.attname ++ pqSendint32 att.atttypid ++
        pqSendint32 att.atttypmod ++ writeAttrsLoop rel columns attrs

/-- `logicalrep_write_attrs`. -/
def writeAttrs (rel : Relation) (columns : Columns) : List UInt8 :=
  pqSendint16 (nliveatts columns rel.attrs 0) ++ writeAttrsLoop rel columns rel.attrs

/-- The name of the namespace, empty for `pg_catalog`. -/
def writeNamespace (nspid : UInt32) : Except String (List UInt8) :=
  if nspid = pgCatalogNamespace then .ok [0]
  else
    match cat.namespaceName nspid with
    | none => .error s!"cache lookup failed for namespace {nspid}"
    | some nspname => .ok (pqSendstring nspname)

/-- The transaction id, when the message belongs to a transaction that is streamed. -/
def writeXid (xid : TransactionId) : List UInt8 :=
  if transactionIdIsValid xid then pqSendint32 xid else []

/-- `logicalrep_write_rel`. -/
def writeRel (xid : TransactionId) (rel : Relation) (columns : Columns) :
    Except String (List UInt8) := do
  let nsp ← writeNamespace cat rel.relnamespace
  return 'R'.toUInt8 :: writeXid xid ++ pqSendint32 rel.relid ++ nsp ++ pqSendstring rel.relname ++
    [rel.relreplident] ++ writeAttrs rel columns

/-- A change of one row. -/
inductive Change (Datum : Type) (rel : Relation)
  | insert (newslot : Slot Datum rel)
  | update (oldslot : Option (Slot Datum rel)) (newslot : Slot Datum rel)
  | delete (oldslot : Slot Datum rel)

/-- Does the whole old row follow, or its key? -/
def oldTupleKind (rel : Relation) : UInt8 :=
  if rel.relreplident = replicaIdentityFull then 'O'.toUInt8 else 'K'.toUInt8

/-- `logicalrep_write_insert`. -/
def writeInsert (xid : TransactionId) (rel : Relation) (newslot : Slot Datum rel) (binary : Bool)
    (columns : Columns) : Except String (List UInt8) := do
  let newtup ← writeTuple cat rel newslot binary columns
  return 'I'.toUInt8 :: writeXid xid ++ pqSendint32 rel.relid ++ ['N'.toUInt8] ++ newtup

/-- The part of an update message for the old row, if there is one. -/
def writeOldTuple (rel : Relation) (binary : Bool) (columns : Columns) :
    Option (Slot Datum rel) → Except String (List UInt8)
  | none => .ok []
  | some oldslot => do
    let oldtup ← writeTuple cat rel oldslot binary columns
    return oldTupleKind rel :: oldtup

/-- `logicalrep_write_update`. -/
def writeUpdate (xid : TransactionId) (rel : Relation) (oldslot : Option (Slot Datum rel))
    (newslot : Slot Datum rel) (binary : Bool) (columns : Columns) :
    Except String (List UInt8) := do
  let old ← writeOldTuple cat rel binary columns oldslot
  let newtup ← writeTuple cat rel newslot binary columns
  return 'U'.toUInt8 :: writeXid xid ++ pqSendint32 rel.relid ++ old ++ ['N'.toUInt8] ++ newtup

/-- `logicalrep_write_delete`. -/
def writeDelete (xid : TransactionId) (rel : Relation) (oldslot : Slot Datum rel) (binary : Bool)
    (columns : Columns) : Except String (List UInt8) := do
  let oldtup ← writeTuple cat rel oldslot binary columns
  return 'D'.toUInt8 :: writeXid xid ++ pqSendint32 rel.relid ++ [oldTupleKind rel] ++ oldtup

/-- The message for a change. -/
def writeChange (xid : TransactionId) (rel : Relation) (binary : Bool) (columns : Columns) :
    Change Datum rel → Except String (List UInt8)
  | .insert newslot => writeInsert cat xid rel newslot binary columns
  | .update oldslot newslot => writeUpdate cat xid rel oldslot newslot binary columns
  | .delete oldslot => writeDelete cat xid rel oldslot binary columns

end Write

/-! ### Reading -/

/-- A column of a tuple as it is received: its kind and its bytes, if it has any. -/
structure Column where
  colstatus : UInt8
  colvalue : List UInt8
  deriving DecidableEq

/-- One column in `logicalrep_read_tuple`. -/
def readColumn : Reader Column := do
  let kind ← pqGetmsgbyte
  if kind = 'n'.toUInt8 then return ⟨kind, []⟩
  else if kind = 'u'.toUInt8 then return ⟨kind, []⟩
  else if kind = 't'.toUInt8 ∨ kind = 'b'.toUInt8 then
    let len ← pqGetmsgint 4
    let buff ← pqCopymsgbytes len
    return ⟨kind, buff⟩
  else throw s!"unrecognized data representation type '{Char.ofNat kind.toNat}'"

/-- `logicalrep_read_tuple`. -/
def readTuple : Reader (List Column) := do
  let natts ← pqGetmsgint 2
  readMany readColumn natts

/-- A relation as it is received; the key columns are given by position. -/
structure LogicalRepRelation where
  remoteid : ℕ
  nspname : List UInt8
  relname : List UInt8
  replident : UInt8
  natts : ℕ
  attnames : List (List UInt8)
  atttyps : List ℕ
  attkeys : List ℕ

/-- The loop over the columns from position `i` on: names, types and positions of keys. -/
def readAttrsLoop : ℕ → ℕ → Reader (List (List UInt8) × List ℕ × List ℕ)
  | 0, _ => return ([], [], [])
  | n + 1, i => do
    let flags ← pqGetmsgbyte
    let attname ← pqGetmsgstring
    let atttyp ← pqGetmsgint 4
    let _atttypmod ← pqGetmsgint 4
    let rest ← readAttrsLoop n (i + 1)
    return (attname :: rest.1, atttyp :: rest.2.1,
      if flags &&& isReplicaIdentity ≠ 0 then i :: rest.2.2 else rest.2.2)

/-- An empty name stands for `pg_catalog`. -/
def readNamespace : Reader (List UInt8) := do
  let nspname ← pqGetmsgstring
  return if nspname.isEmpty then "pg_catalog".toList.map Char.toUInt8 else nspname

/-- `logicalrep_read_rel`, with the columns of `logicalrep_read_attrs`. -/
def readRel : Reader LogicalRepRelation := do
  let remoteid ← pqGetmsgint 4
  let nspname ← readNamespace
  let relname ← pqGetmsgstring
  let replident ← pqGetmsgbyte
  let natts ← pqGetmsgint 2
  let attrs ← readAttrsLoop natts 0
  return ⟨remoteid, nspname, relname, replident, natts, attrs.1, attrs.2.1, attrs.2.2⟩

/-- A change as the readers know it. -/
inductive ReceivedChange
  | insert (newtup : List Column)
  | update (oldtup : Option (List Column)) (newtup : List Column)
  | delete (oldtup : List Column)

/-- `logicalrep_read_insert`. -/
def readInsert : Reader (ℕ × ReceivedChange) := do
  let relid ← pqGetmsgint 4
  let action ← pqGetmsgbyte
  if action ≠ 'N'.toUInt8 then throw s!"expected new tuple but got {action}"
  let newtup ← readTuple
  return (relid, .insert newtup)

/-- `logicalrep_read_update`. -/
def readUpdate : Reader (ℕ × ReceivedChange) := do
  let relid ← pqGetmsgint 4
  let action ← pqGetmsgbyte
  if action = 'K'.toUInt8 ∨ action = 'O'.toUInt8 then
    let oldtup ← readTuple
    let action ← pqGetmsgbyte
    if action ≠ 'N'.toUInt8 then throw s!"expected action 'N', got {Char.ofNat action.toNat}"
    let newtup ← readTuple
    return (relid, .update (some oldtup) newtup)
  else if action = 'N'.toUInt8 then
    let newtup ← readTuple
    return (relid, .update none newtup)
  else throw s!"expected action 'N', 'O' or 'K', got {Char.ofNat action.toNat}"

/-- `logicalrep_read_delete`. -/
def readDelete : Reader (ℕ × ReceivedChange) := do
  let relid ← pqGetmsgint 4
  let action ← pqGetmsgbyte
  if action ≠ 'K'.toUInt8 ∧ action ≠ 'O'.toUInt8 then
    throw s!"expected action 'O' or 'K', got {Char.ofNat action.toNat}"
  let oldtup ← readTuple
  return (relid, .delete oldtup)

/-- A message of the given type, with a transaction id when it is streamed. -/
def readHeader (streamed : Bool) : Reader UInt8 := do
  let action ← pqGetmsgbyte
  if streamed then
    let _xid ← pqGetmsgint 4
    return action
  else return action

/-- A relation message from its first byte on. -/
def readRelMessage (streamed : Bool) : Reader LogicalRepRelation := do
  let action ← readHeader streamed
  if action = 'R'.toUInt8 then readRel
  else throw s!"invalid logical replication message type \"??? ({action})\""

/-- A change message from its first byte on. -/
def readChangeMessage (streamed : Bool) : Reader (ℕ × ReceivedChange) := do
  let action ← readHeader streamed
  if action = 'I'.toUInt8 then readInsert
  else if action = 'U'.toUInt8 then readUpdate
  else if action = 'D'.toUInt8 then readDelete
  else throw s!"invalid logical replication message type \"??? ({action})\""

end PgCutover.LogicalRep
