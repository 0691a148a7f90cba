import PgCutover.LogicalRep.Proto

/-!
# Changes arrive as they were sent

All writers send the same columns in the same order.
-/

namespace PgCutover.LogicalRep

open List

open Lib (Reads readMany exists_of_bind_eq_ok)
open Transam (TransactionId transactionIdIsValid)

/-- The columns that are sent. -/
def live (columns : Columns) (att : Attribute) : Bool :=
  !(att.attisdropped || att.attgenerated) && columnInColumnList att.attnum columns

/-- The columns of the replica identity. -/
def inIdentity (rel : Relation) (att : Attribute) : Bool :=
  rel.relreplident = replicaIdentityFull || rel.identityKey att.attnum

/-- The kind and the bytes of a value of the table, if its type is known. -/
def columnContent {Datum : Type} (cat : Catalog Datum) (binary : Bool) (att : Attribute) :
    Option Datum → Option Column
  | none => some ⟨'n'.toUInt8, []⟩
  | some datum =>
    if att.attlen = -1 ∧ cat.externalOndisk datum then some ⟨'u'.toUInt8, []⟩
    else (cat.types att.atttypid).map fun typclass =>
      match binary, typclass.typsend with
      | true, some typsend => ⟨'b'.toUInt8, (typsend datum).bytes⟩
      | _, _ => ⟨'t'.toUInt8, (typclass.typoutput datum).bytes⟩

/-! ### The loops over the attributes -/

section Loops

variable {Datum : Type} {cat : Catalog Datum} {binary : Bool} {columns : Columns}

variable {att : Attribute} {bytes : List UInt8}

/-- The loops skip the columns that are not sent. -/
theorem ite_skip {α : Type} (x y : α) :
    (if (att.attisdropped || att.attgenerated) = true then x
      else if (!columnInColumnList att.attnum columns) = true then x else y) =
      if live columns att = true then y else x := by
  rw [live]
  cases att.attisdropped || att.attgenerated <;> cases columnInColumnList att.attnum columns <;> rfl

/-- The count is the number of columns that are sent. -/
theorem toNat_nliveatts {attrs : List Attribute} {n : UInt16}
    (h : n.toNat + attrs.length < 2 ^ 16) :
    (nliveatts columns attrs n).toNat = n.toNat + (attrs.filter (live columns)).length := by
  induction attrs generalizing n with
  | nil => rfl
  | cons _ _ ih =>
    rw [length_cons] at h
    rw [nliveatts, ite_skip]
    split_ifs with hlive
    · have hsucc : (n + 1).toNat = n.toNat + 1 := by
        rw [UInt16.toNat_add, UInt16.toNat_one, Nat.mod_eq_of_lt (by omega)]
      rw [ih (by omega), filter_cons_of_pos hlive, length_cons, hsucc]
      omega
    · rw [ih (by omega), filter_cons_of_neg hlive]

theorem toNat_nliveatts_rel (rel : Relation) :
    (nliveatts columns rel.attrs 0).toNat = (rel.attrs.filter (live columns)).length := by
  have := rel.natts_le
  rw [toNat_nliveatts (by rw [UInt16.toNat_zero]; omega), UInt16.toNat_zero, Nat.zero_add]

theorem writeColumn_spec {value : Option Datum} (h : writeColumn cat binary att value = .ok bytes) :
    ∃ column, columnContent cat binary att value = some column ∧
      Reads readColumn bytes column := by
  have hcounted : ∀ (kind : UInt8) (s : ByteString), kind = 't'.toUInt8 ∨ kind = 'b'.toUInt8 →
      Reads readColumn (kind :: pqSendcounted s) ⟨kind, s.bytes⟩ := by
    intro kind s hkind
    have hn : kind ≠ 'n'.toUInt8 := by rcases hkind with rfl | rfl <;> decide
    have hu : kind ≠ 'u'.toUInt8 := by rcases hkind with rfl | rfl <;> decide
    have hlen : s.bytes.length < 256 ^ 4 := Nat.lt_trans s.short (by decide)
    refine (reads_byte kind).bind ?_
    rw [if_neg hn, if_neg hu, if_pos hkind]
    exact (reads_beBytes hlen).bind ((reads_bytes s.bytes).map (Reads.pure _))
  cases value with
  | none =>
    cases h
    exact ⟨_, rfl, (reads_byte _).map (Reads.pure _)⟩
  | some =>
    rw [writeColumn] at h
    rw [columnContent]
    split_ifs at h ⊢ with hext
    · cases h
      exact ⟨_, rfl, (reads_byte _).map (Reads.pure _)⟩
    · cases htype : cat.types att.atttypid with
      | none => rw [htype] at h; cases h
      | some typclass =>
        rw [htype] at h
        dsimp only at h
        rw [Option.map_some]
        cases hsend : typclass.typsend with rw [hsend] at h
        | none =>
          cases binary
          all_goals
            cases h
            exact ⟨_, rfl, hcounted _ _ (Or.inl rfl)⟩
        | some =>
          cases binary
          all_goals cases h
          · exact ⟨_, rfl, hcounted _ _ (Or.inl rfl)⟩
          · exact ⟨_, rfl, hcounted _ _ (Or.inr rfl)⟩

/-- The values that are sent are read back in order. -/
theorem writeValues_spec {values : List (Attribute × Option Datum)}
    (h : writeValues cat binary columns values = .ok bytes) :
    ∃ received, (values.filter fun v => live columns v.1).map
        (fun v => columnContent cat binary v.1 v.2) = received.map some ∧
      Reads (readMany readColumn received.length) bytes received := by
  induction values generalizing bytes with
  | nil =>
    cases h
    exact ⟨[], rfl, Reads.pure []⟩
  | cons v _ ih =>
    obtain ⟨att, value⟩ := v
    rw [writeValues, ite_skip] at h
    split_ifs at h with hlive
    · rw [filter_cons_of_pos (by exact hlive)]
      cases hcolumn : writeColumn cat binary att value with
      | error => rw [hcolumn] at h; cases h
      | ok =>
        rw [hcolumn] at h
        obtain ⟨_, hrest, rfl⟩ := exists_of_bind_eq_ok h
        obtain ⟨column, hcontent, hreads⟩ := writeColumn_spec hcolumn
        obtain ⟨received, hcontents, hreadsRest⟩ := ih hrest
        refine ⟨column :: received, ?_, ?_⟩
        · rw [map_cons, map_cons, hcontent, hcontents]
        · exact hreads.bind (hreadsRest.map (Reads.pure _))
    · rw [filter_cons_of_neg (by exact hlive)]
      exact ih h

theorem map_fst_filter_zip {attrs : List Attribute} {values : List (Option Datum)}
    (h : values.length = attrs.length) :
    ((attrs.zip values).filter fun v => live columns v.1).map Prod.fst =
      attrs.filter (live columns) := by
  have hfilter := @filter_map _ _ Prod.fst (live columns) (attrs.zip values)
  rw [map_fst_zip (by omega)] at hfilter
  exact hfilter.symm

/-- The tuple holds the values of the columns that are sent. -/
def Carries {rel : Relation} (cat : Catalog Datum) (binary : Bool) (columns : Columns)
    (pair : Slot Datum rel × List Column) : Prop :=
  ((rel.attrs.zip pair.1.values).filter fun v => live columns v.1).map
    (fun v => columnContent cat binary v.1 v.2) = pair.2.map some

theorem Carries.length {rel : Relation} {pair : Slot Datum rel × List Column}
    (h : Carries cat binary columns pair) :
    pair.2.length = (rel.attrs.filter (live columns)).length := by
  have := congrArg List.length h
  rw [length_map, length_map] at this
  rw [← this, ← map_fst_filter_zip pair.1.length_eq, length_map]

/-- A row is read back. -/
theorem writeTuple_spec {rel : Relation} {slot : Slot Datum rel}
    (h : writeTuple cat rel slot binary columns = .ok bytes) :
    ∃ received, Carries cat binary columns (slot, received) ∧ Reads readTuple bytes received := by
  obtain ⟨_, hvalues, rfl⟩ := exists_of_bind_eq_ok h
  obtain ⟨received, hcontents, hreads⟩ := writeValues_spec hvalues
  have hcarries : Carries cat binary columns (slot, received) := hcontents
  refine ⟨received, hcarries, (reads_int16 _).bind ?_⟩
  rw [toNat_nliveatts_rel, ← hcarries.length]
  exact hreads

end Loops

theorem reads_header (action : UInt8) (xid : TransactionId) :
    Reads (readHeader (transactionIdIsValid xid)) (action :: writeXid xid) action := by
  refine (reads_byte action).bind ?_
  cases transactionIdIsValid xid with
  | false => exact Reads.pure action
  | true => exact (reads_int32 xid).map (Reads.pure action)

/-! ### Relation messages -/

section Relations

variable {rel : Relation} {columns : Columns}

/-- The positions of the columns of the replica identity, counted from `i`. -/
def keyPositions (rel : Relation) : ℕ → List Attribute → List ℕ
  | _, [] => []
  | i, att :: attrs =>
    if inIdentity rel att then i :: keyPositions rel (i + 1) attrs
    else keyPositions rel (i + 1) attrs

theorem mem_keyPositions {attrs : List Attribute} {i j : ℕ} :
    j ∈ keyPositions rel i attrs ↔
      ∃ k att, attrs[k]? = some att ∧ j = i + k ∧ inIdentity rel att = true := by
  induction attrs generalizing i with
  | nil => simp [keyPositions]
  | cons att attrs ih =>
    have hshift : (∃ k a, (att :: attrs)[k]? = some a ∧ j = i + k ∧ inIdentity rel a = true) ↔
        (j = i ∧ inIdentity rel att = true) ∨
          ∃ k a, attrs[k]? = some a ∧ j = i + 1 + k ∧ inIdentity rel a = true := by
      constructor
      · rintro ⟨k, a, hk, hj, ha⟩
        cases k with
        | zero =>
          cases hk
          exact Or.inl ⟨hj, ha⟩
        | succ k => exact Or.inr ⟨k, a, hk, by omega, ha⟩
      · rintro (⟨hj, ha⟩ | ⟨k, a, hk, hj, ha⟩)
        · exact ⟨0, att, rfl, hj, ha⟩
        · exact ⟨k + 1, a, hk, by omega, ha⟩
    rw [hshift, keyPositions, ← ih]
    split_ifs with hatt
    · rw [mem_cons, and_iff_left hatt]
    · rw [or_iff_right (fun hand => hatt hand.2)]

theorem attrFlags_iff (att : Attribute) :
    attrFlags rel att &&& isReplicaIdentity ≠ 0 ↔ inIdentity rel att = true := by
  rw [attrFlags, inIdentity, Bool.or_eq_true, decide_eq_true_iff]
  split_ifs with hid
  · exact iff_of_true (by decide) hid
  · exact iff_of_false (by decide) hid

theorem reads_attrsLoop (attrs : List Attribute) (i : ℕ) :
    Reads (readAttrsLoop (attrs.filter (live columns)).length i)
      (writeAttrsLoop rel columns attrs)
      ((attrs.filter (live columns)).map (·.attname.bytes),
        (attrs.filter (live columns)).map (·.atttypid.toNat),
        keyPositions rel i (attrs.filter (live columns))) := by
  induction attrs generalizing i with
  | nil => exact Reads.pure _
  | cons _ _ ih =>
    rw [writeAttrsLoop, ite_skip]
    split_ifs with hlive
    · rw [filter_cons_of_pos hlive, length_cons, readAttrsLoop]
      simp only [append_assoc, keyPositions, ← attrFlags_iff]
      exact (reads_byte _).bind ((reads_string _).bind ((reads_int32 _).bind ((reads_int32 _).bind
        ((ih (i + 1)).map (Reads.pure _)))))
    · rw [filter_cons_of_neg hlive]
      exact ih i

theorem writeNamespace_spec {Datum : Type} {cat : Catalog Datum} {nspid : UInt32}
    {bytes : List UInt8} (h : writeNamespace cat nspid = .ok bytes) :
    ∃ nspname, Reads readNamespace bytes nspname := by
  rw [writeNamespace] at h
  split_ifs at h
  · cases h
    have hempty : Reads pqGetmsgstring [0] [] := reads_string ⟨[], by simp⟩
    exact ⟨_, hempty.map (Reads.pure _)⟩
  · cases hname : cat.namespaceName nspid with
    | none => rw [hname] at h; cases h
    | some nspname =>
      rw [hname] at h
      cases h
      exact ⟨_, (reads_string nspname).map (Reads.pure _)⟩

/-- The relation that the subscriber gets to know. -/
theorem writeRel_spec {Datum : Type} {cat : Catalog Datum} {xid : TransactionId}
    {bytes : List UInt8} (h : writeRel cat xid rel columns = .ok bytes) :
    ∃ r : LogicalRepRelation, Reads (readRelMessage (transactionIdIsValid xid)) bytes r ∧
      r.remoteid = rel.relid.toNat ∧
      r.natts = (rel.attrs.filter (live columns)).length ∧
      r.attnames = (rel.attrs.filter (live columns)).map (·.attname.bytes) ∧
      r.attkeys = keyPositions rel 0 (rel.attrs.filter (live columns)) := by
  obtain ⟨_, hnsp, rfl⟩ := exists_of_bind_eq_ok h
  obtain ⟨nspname, hnspname⟩ := writeNamespace_spec hnsp
  have hattrs := @reads_attrsLoop rel columns rel.attrs 0
  rw [← toNat_nliveatts_rel] at hattrs
  refine ⟨⟨rel.relid.toNat, nspname, rel.relname.bytes, rel.relreplident,
    (nliveatts columns rel.attrs 0).toNat, _,
    (rel.attrs.filter (live columns)).map (·.atttypid.toNat), _⟩, ?_, rfl,
    toNat_nliveatts_rel rel, rfl, rfl⟩
  simp only [append_assoc]
  refine (reads_header 'R'.toUInt8 xid).bind ?_
  exact (reads_int32 _).bind (hnspname.bind ((reads_string _).bind ((reads_byte _).bind
    ((reads_int16 _).bind (hattrs.map (Reads.pure _))))))

end Relations

/-! ### Change messages -/

section Changes

variable {Datum : Type} {cat : Catalog Datum} {rel : Relation} {binary : Bool} {columns : Columns}

/-- The rows of a change with the tuples received for them, if they are tuples of such a change. -/
def tuplePairs : Change Datum rel → ReceivedChange → Option (List (Slot Datum rel × List Column))
  | .insert newslot, .insert newtup => some [(newslot, newtup)]
  | .update none newslot, .update none newtup => some [(newslot, newtup)]
  | .update (some oldslot) newslot, .update (some oldtup) newtup =>
    some [(oldslot, oldtup), (newslot, newtup)]
  | .delete oldslot, .delete oldtup => some [(oldslot, oldtup)]
  | _, _ => none

variable {xid : TransactionId} {bytes : List UInt8}

theorem writeInsert_spec {newslot : Slot Datum rel}
    (h : writeInsert cat xid rel newslot binary columns = .ok bytes) :
    ∃ newtup, Reads (readChangeMessage (transactionIdIsValid xid)) bytes
        (rel.relid.toNat, .insert newtup) ∧ Carries cat binary columns (newslot, newtup) := by
  obtain ⟨_, htuple, rfl⟩ := exists_of_bind_eq_ok h
  obtain ⟨newtup, hcarries, hreads⟩ := writeTuple_spec htuple
  refine ⟨newtup, ?_, hcarries⟩
  simp only [append_assoc]
  refine (reads_header 'I'.toUInt8 xid).bind ?_
  exact (reads_int32 _).bind ((reads_byte _).bind (hreads.map (Reads.pure _)))

theorem oldTupleKind_eq (rel : Relation) :
    oldTupleKind rel = 'K'.toUInt8 ∨ oldTupleKind rel = 'O'.toUInt8 := by
  rw [oldTupleKind]
  split_ifs
  · exact Or.inr rfl
  · exact Or.inl rfl

theorem writeDelete_spec {oldslot : Slot Datum rel}
    (h : writeDelete cat xid rel oldslot binary columns = .ok bytes) :
    ∃ oldtup, Reads (readChangeMessage (transactionIdIsValid xid)) bytes
        (rel.relid.toNat, .delete oldtup) ∧ Carries cat binary columns (oldslot, oldtup) := by
  obtain ⟨_, htuple, rfl⟩ := exists_of_bind_eq_ok h
  obtain ⟨oldtup, hcarries, hreads⟩ := writeTuple_spec htuple
  refine ⟨oldtup, ?_, hcarries⟩
  simp only [append_assoc]
  refine (reads_header 'D'.toUInt8 xid).bind ?_
  refine (reads_int32 _).bind ((reads_byte _).bind ?_)
  rcases oldTupleKind_eq rel with hkind | hkind
  all_goals
    rw [hkind]
    exact hreads.map (Reads.pure _)

theorem writeUpdate_spec {oldslot : Option (Slot Datum rel)} {newslot : Slot Datum rel}
    (h : writeUpdate cat xid rel oldslot newslot binary columns = .ok bytes) :
    ∃ c pairs, Reads (readChangeMessage (transactionIdIsValid xid)) bytes (rel.relid.toNat, c) ∧
      tuplePairs (.update oldslot newslot) c = some pairs ∧
      ∀ pair ∈ pairs, Carries cat binary columns pair := by
  rw [writeUpdate] at h
  cases hold : writeOldTuple cat rel binary columns oldslot with
  | error => rw [hold] at h; cases h
  | ok old =>
    rw [hold] at h
    obtain ⟨_, hnew, rfl⟩ := exists_of_bind_eq_ok h
    obtain ⟨newtup, hnewcarries, hnewreads⟩ := writeTuple_spec hnew
    simp only [append_assoc]
    cases oldslot with
    | none =>
      cases hold
      refine ⟨.update none newtup, [(newslot, newtup)], ?_, rfl,
        forall_mem_singleton.2 hnewcarries⟩
      refine (reads_header 'U'.toUInt8 xid).bind ?_
      exact (reads_int32 _).bind ((reads_byte _).bind (hnewreads.map (Reads.pure _)))
    | some oldslot =>
      obtain ⟨_, htuple, rfl⟩ := exists_of_bind_eq_ok hold
      obtain ⟨oldtup, holdcarries, holdreads⟩ := writeTuple_spec htuple
      refine ⟨.update (some oldtup) newtup, [(oldslot, oldtup), (newslot, newtup)], ?_, rfl,
        forall_mem_cons.2 ⟨holdcarries, forall_mem_singleton.2 hnewcarries⟩⟩
      refine (reads_header 'U'.toUInt8 xid).bind ?_
      refine (reads_int32 _).bind ((reads_byte _).bind ?_)
      -- the key of the old row and the whole old row are read alike
      rcases oldTupleKind_eq rel with hkind | hkind
      all_goals
        rw [hkind]
        exact holdreads.bind ((reads_byte _).bind (hnewreads.map (Reads.pure _)))

theorem writeChange_spec {change : Change Datum rel}
    (h : writeChange cat xid rel binary columns change = .ok bytes) :
    ∃ c pairs, Reads (readChangeMessage (transactionIdIsValid xid)) bytes (rel.relid.toNat, c) ∧
      tuplePairs change c = some pairs ∧ ∀ pair ∈ pairs, Carries cat binary columns pair := by
  cases change with
  | insert newslot =>
    obtain ⟨newtup, hreads, hcarries⟩ := writeInsert_spec h
    exact ⟨.insert newtup, [(newslot, newtup)], hreads, rfl,
      forall_mem_singleton.2 hcarries⟩
  | update => exact writeUpdate_spec h
  | delete oldslot =>
    obtain ⟨oldtup, hreads, hcarries⟩ := writeDelete_spec h
    exact ⟨.delete oldtup, [(oldslot, oldtup)], hreads, rfl,
      forall_mem_singleton.2 hcarries⟩

end Changes

/-! ### Columns by name -/

section Names

variable {Datum : Type} {cat : Catalog Datum} {rel : Relation} {binary : Bool} {columns : Columns}

theorem CString.ext_bytes {s t : CString} (h : s.bytes = t.bytes) : s = t := by
  cases s
  cases h
  rfl

/-- A name belongs to one column, and so to one value of a row. -/
theorem eq_of_attname (slot : Slot Datum rel) {v w : Attribute × Option Datum}
    (hv : v ∈ rel.attrs.zip slot.values) (hw : w ∈ rel.attrs.zip slot.values)
    (h : v.1.attname = w.1.attname) : v = w := by
  have hnames : ((rel.attrs.zip slot.values).map fun v => v.1.attname).Nodup := by
    have hmap : (rel.attrs.zip slot.values).map (fun v => v.1.attname) =
        ((rel.attrs.zip slot.values).map Prod.fst).map Attribute.attname := by
      rw [map_map]
      rfl
    rw [hmap, map_fst_zip (by rw [slot.length_eq])]
    exact rel.names_nodup
  exact inj_on_of_nodup_map hnames hv hw h

variable {pair : Slot Datum rel × List Column}

theorem Carries.column
    (h : Carries cat binary columns pair) {i : ℕ} {att : Attribute} {value : Option Datum}
    (hmem : (att, value) ∈ rel.attrs.zip pair.1.values)
    (hname : ((rel.attrs.filter (live columns)).map (·.attname.bytes))[i]? =
      some att.attname.bytes) :
    columnContent cat binary att value = pair.2[i]? := by
  rw [← map_fst_filter_zip pair.1.length_eq, map_map, List.getElem?_map,
    Option.map_eq_some_iff] at hname
  obtain ⟨v, hv, hbytes⟩ := hname
  have hvmem := mem_filter.1 (mem_of_getElem? hv)
  obtain rfl : v = (att, value) := eq_of_attname pair.1 hvmem.1 hmem (CString.ext_bytes hbytes)
  have hget := congrArg (fun l => l[i]?) h
  simp only [List.getElem?_map, hv] at hget
  cases hcol : pair.2[i]? with
  | none => rw [hcol] at hget; cases hget
  | some =>
    rw [hcol] at hget
    exact Option.some.inj hget

end Names

/-- A relation message and a change message of the table are read back to a relation and tuples
with the same columns: each tuple has as many columns as the relation, the column at a position
has the kind and bytes of the table's column whose name the relation has at the position, and the
relation's keys are the positions of the columns of the replica identity that were sent. -/
theorem change_message_roundTrip {Datum : Type} (cat : Catalog Datum) (rel : Relation)
    (columns : Columns) (binary : Bool) (xid : TransactionId) (change : Change Datum rel)
    (relMsg changeMsg : List UInt8) (hrel : writeRel cat xid rel columns = .ok relMsg)
    (hchange : writeChange cat xid rel binary columns change = .ok changeMsg) :
    ∃ r c pairs,
      readRelMessage (transactionIdIsValid xid) relMsg = .ok (r, []) ∧
      readChangeMessage (transactionIdIsValid xid) changeMsg = .ok ((rel.relid.toNat, c), []) ∧
      r.remoteid = rel.relid.toNat ∧ tuplePairs change c = some pairs ∧
      r.natts = r.attnames.length ∧
      (∀ name, name ∈ r.attnames ↔
        ∃ att ∈ rel.attrs, live columns att = true ∧ att.attname.bytes = name) ∧
      (∀ pair ∈ pairs, pair.2.length = r.natts ∧
        ∀ (i : ℕ) att value, (att, value) ∈ rel.attrs.zip pair.1.values →
          r.attnames[i]? = some att.attname.bytes →
          columnContent cat binary att value = pair.2[i]?) ∧
      ∀ i : ℕ, i ∈ r.attkeys ↔ ∃ att ∈ rel.attrs, live columns att = true ∧
        inIdentity rel att = true ∧ r.attnames[i]? = some att.attname.bytes := by
  obtain ⟨r, hreadsRel, hid, hnatts, hnames, hkeys⟩ := writeRel_spec hrel
  obtain ⟨c, pairs, hreadsChange, hpairs, hcarries⟩ := writeChange_spec hchange
  have hreadsRel := hreadsRel []
  have hreadsChange := hreadsChange []
  rw [append_nil] at hreadsRel hreadsChange
  refine ⟨r, c, pairs, hreadsRel, hreadsChange, hid, hpairs, ?_, ?_, ?_, ?_⟩
  · rw [hnatts, hnames, length_map]
  · intro _
    rw [hnames, mem_map]
    simp only [mem_filter, and_assoc]
  · intro pair hpair
    refine ⟨(hcarries pair hpair).length.trans hnatts.symm, fun i att value hmem hname => ?_⟩
    rw [hnames] at hname
    exact (hcarries pair hpair).column hmem hname
  · intro i
    rw [hkeys, mem_keyPositions, hnames]
    constructor
    · rintro ⟨k, att, hatt, rfl, hin⟩
      have hmem := mem_filter.1 (mem_of_getElem? hatt)
      refine ⟨att, hmem.1, hmem.2, hin, ?_⟩
      rw [Nat.zero_add, List.getElem?_map, hatt, Option.map_some]
    · rintro ⟨att, hmem, -, hin, hname⟩
      rw [List.getElem?_map, Option.map_eq_some_iff] at hname
      obtain ⟨a, ha, hbytes⟩ := hname
      have hamem := (mem_filter.1 (mem_of_getElem? ha)).1
      obtain rfl : a = att := inj_on_of_nodup_map rel.names_nodup hamem hmem
        (CString.ext_bytes hbytes)
      exact ⟨i, a, ha, (Nat.zero_add i).symm, hin⟩

/-! A table with a key column, a dropped column and a toasted column that an update leaves alone. -/

/-- All columns have one type, with texts of one byte. -/
def accountsCatalog : Catalog Bool where
  types := fun _ => some ⟨none, fun datum => ⟨[if datum then 49 else 48], by decide +revert⟩⟩
  namespaceName := fun _ => none
  externalOndisk := fun datum => datum

/-- A table with a key column, a dropped column and a third one. -/
def accounts : Relation where
  relid := 16384
  relnamespace := pgCatalogNamespace
  relname := ⟨[97], by simp⟩
  relreplident := 'd'.toUInt8
  attrs := [⟨⟨[105, 100], by simp⟩, 1, 23, 0, 4, false, false⟩,
    ⟨⟨[120], by simp⟩, 2, 23, 0, 4, true, false⟩,
    ⟨⟨[110], by simp⟩, 3, 25, 0, -1, false, false⟩]
  identityKey := fun attnum => attnum = 1
  names_nodup := by decide
  natts_le := by decide

/-- A row with a null in the dropped column. -/
def accountsRow : Slot Bool accounts := ⟨[some false, none, some true], rfl⟩

theorem change_message_roundTrip_accounts :
    ∃ relMsg changeMsg r c,
      writeRel accountsCatalog 0 accounts none = .ok relMsg ∧
      writeChange accountsCatalog 0 accounts false none (.update none accountsRow) =
        .ok changeMsg ∧
      readRelMessage false relMsg = .ok (r, []) ∧
      readChangeMessage false changeMsg = .ok ((16384, c), []) ∧
      r.remoteid = 16384 ∧ r.natts = r.attnames.length := by
  obtain ⟨relMsg, hrel⟩ : ∃ relMsg, writeRel accountsCatalog 0 accounts none = .ok relMsg :=
    ⟨_, rfl⟩
  obtain ⟨changeMsg, hchange⟩ : ∃ changeMsg, writeChange accountsCatalog 0 accounts false none
      (.update none accountsRow) = .ok changeMsg := ⟨_, rfl⟩
  obtain ⟨r, c, _, hreadRel, hreadChange, hid, _, hnatts, _⟩ :=
    change_message_roundTrip accountsCatalog accounts none false 0 (.update none accountsRow)
      relMsg changeMsg hrel hchange
  exact ⟨relMsg, changeMsg, r, c, hrel, hchange, hreadRel, hreadChange, hid, hnatts⟩

end PgCutover.LogicalRep
