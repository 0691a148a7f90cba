import Mathlib.Data.Int.Notation
import PgCutover.Lib.ThreeValued

/-!
# Expressions

The expression nodes that `predtest.c` looks into, their equality as `equal()` decides it, and
their value for an assignment of values to all other sub-expressions. Values are those of
an arbitrary type with the operations that the executor and the planner use on
them (`Semantics`). NULL is `none`.
-/

namespace PgCutover.Predtest

open Lib

/-- Object identifiers. -/
abbrev Oid := ℕ

/-- AND, OR and NOT. -/
inductive BoolExprType
  | and
  | or
  | not
  deriving DecidableEq, Repr

/-- The six boolean tests. -/
inductive BoolTestType
  | isTrue
  | isNotTrue
  | isFalse
  | isNotFalse
  | isUnknown
  | isNotUnknown
  deriving DecidableEq, Repr

/-- IS NULL and IS NOT NULL. -/
inductive NullTestType
  | isNull
  | isNotNull
  deriving DecidableEq, Repr

/-- The coercions that are strict whatever functions they call: `CoerceViaIO`,
`ArrayCoerceExpr`, `ConvertRowtypeExpr` and `CoerceToDomain`, with the type of the result. -/
inductive Coercion
  | viaIo (resulttype : Oid)
  | array (resulttype : Oid)
  | convertRowtype (resulttype : Oid)
  | toDomain (resulttype : Oid)
  deriving DecidableEq, Repr

/-- A constant, with its type and its value or NULL. -/
structure Const (V : Type*) where
  consttype : Oid
  consttypmod : ℤ
  constcollid : Oid
  constvalue : Option V
  deriving DecidableEq, Repr

/-- The constant is NULL. -/
def Const.constisnull {V : Type*} (c : Const V) : Bool := c.constvalue.isNone

/-- Expression nodes. A `list` is an implicit conjunction. A node of any other kind is `other`,
whose value is part of the assignment. -/
inductive Expr (V : Type*)
  | other (id : ℕ)
  | const (c : Const V)
  | opExpr (opno inputcollid : Oid) (args : List (Expr V))
  | funcExpr (funcid inputcollid : Oid) (args : List (Expr V))
  | relabelType (resulttype : Oid) (arg : Expr V)
  | coerce (kind : Coercion) (arg : Expr V)
  | scalarArrayOpExpr (opno : Oid) (useOr : Bool) (inputcollid : Oid) (scalar array : Expr V)
  | arrayExpr (multidims : Bool) (elements : List (Expr V))
  | boolExpr (boolop : BoolExprType) (args : List (Expr V))
  | booleanTest (booltesttype : BoolTestType) (arg : Expr V)
  | nullTest (nulltesttype : NullTestType) (argisrow : Bool) (arg : Expr V)
  | list (items : List (Expr V))
  | restrictInfo (clause : Expr V)

namespace Expr

variable {V : Type*}

/-! ### Equality -/

section Equal

variable [DecidableEq V]

mutual

/-- `equal`. -/
def equal : Expr V → Expr V → Bool
  | other a, other b => a = b
  | const a, const b => a = b
  | opExpr a c as, opExpr b d bs => a = b && c = d && equalList as bs
  | funcExpr a c as, funcExpr b d bs => a = b && c = d && equalList as bs
  | relabelType a e, relabelType b f => a = b && equal e f
  | coerce a e, coerce b f => a = b && equal e f
  | scalarArrayOpExpr a o c e e', scalarArrayOpExpr b p d f f' =>
      a = b && o = p && c = d && equal e f && equal e' f'
  | arrayExpr a as, arrayExpr b bs => a = b && equalList as bs
  | boolExpr a as, boolExpr b bs => a = b && equalList as bs
  | booleanTest a e, booleanTest b f => a = b && equal e f
  | nullTest a r e, nullTest b q f => a = b && r = q && equal e f
  | list as, list bs => equalList as bs
  | restrictInfo e, restrictInfo f => equal e f
  | _, _ => false

/-- `equal()` on lists. -/
def equalList : List (Expr V) → List (Expr V) → Bool
  | [], [] => true
  | e :: es, f :: fs => equal e f && equalList es fs
  | _, _ => false

end

mutual

theorem eq_of_equal {e f : Expr V} (h : equal e f = true) : e = f := by
  cases e <;> cases f <;>
    simp only [equal, Bool.and_eq_true, decide_eq_true_eq, Bool.false_eq_true] at h
  case other.other => rw [h]
  case const.const => rw [h]
  case opExpr.opExpr | funcExpr.funcExpr => rw [h.1.1, h.1.2, eq_of_equalList h.2]
  case relabelType.relabelType | coerce.coerce | booleanTest.booleanTest =>
    rw [h.1, eq_of_equal h.2]
  case scalarArrayOpExpr.scalarArrayOpExpr =>
    rw [h.1.1.1.1, h.1.1.1.2, h.1.1.2, eq_of_equal h.1.2, eq_of_equal h.2]
  case arrayExpr.arrayExpr | boolExpr.boolExpr => rw [h.1, eq_of_equalList h.2]
  case nullTest.nullTest => rw [h.1.1, h.1.2, eq_of_equal h.2]
  case list.list => rw [eq_of_equalList h]
  case restrictInfo.restrictInfo => rw [eq_of_equal h]

theorem eq_of_equalList {es fs : List (Expr V)} (h : equalList es fs = true) : es = fs := by
  cases es <;> cases fs <;> simp only [equalList, Bool.and_eq_true, Bool.false_eq_true] at h
  case nil.nil => rfl
  case cons.cons => rw [eq_of_equal h.1, eq_of_equalList h.2]

end

end Equal

/-! ### Size -/

mutual

/-- The size of an expression. It is larger than that of every component into which a
conjunction or a disjunction is taken apart. -/
def weight : Expr V → ℕ
  | other _ => 1
  | const _ => 1
  | opExpr _ _ args => 1 + weightList args
  | funcExpr _ _ args => 1 + weightList args
  | relabelType _ arg => 1 + weight arg
  | coerce _ arg => 1 + weight arg
  | scalarArrayOpExpr _ _ _ scalar array => 3 + weight scalar + weight array
  | arrayExpr _ elements => 1 + weightList elements
  | boolExpr _ args => 1 + weightList args
  | booleanTest _ arg => 1 + weight arg
  | nullTest _ _ arg => 1 + weight arg
  | list items => 1 + weightList items
  | restrictInfo clause => 1 + weight clause

/-- The size of a list of expressions. -/
def weightList : List (Expr V) → ℕ
  | [] => 0
  | e :: es => weight e + weightList es

end

theorem weight_le_weightList {e : Expr V} {es : List (Expr V)} (h : e ∈ es) :
    weight e ≤ weightList es := by
  induction es with
  | nil => cases h
  | cons _ _ ih =>
    rw [weightList]
    rcases List.mem_cons.mp h with rfl | hmem
    · omega
    · have := ih hmem
      omega

end Expr

/-! ### Values -/

/-- The operations on values. -/
structure Semantics (V : Type*) where
  /-- `DatumGetBool`. -/
  getBool : V → Bool
  /-- `BoolGetDatum`. -/
  ofBool : Bool → V
  /-- `ARR_ELEMTYPE`. -/
  elemType : V → Oid
  /-- The elements of an array, as `deconstruct_array` gives them. -/
  elements : V → List (Option V)
  /-- The value of an `ArrayExpr` of one dimension. -/
  array : List (Option V) → V
  /-- The value of an `ArrayExpr` with `multidims`. -/
  multiArray : List (Option V) → Option V
  /-- The function of an operator, for a collation and arguments. -/
  op : Oid → Oid → List (Option V) → Option V
  /-- A function, for a collation and arguments. -/
  func : Oid → Oid → List (Option V) → Option V
  /-- A coercion of a value that is not NULL. -/
  coerce : Coercion → V → Option V
  /-- A test of a row for NULLs, which looks at the columns. -/
  rowTest : NullTestType → Option V → Bool
  getBool_ofBool : ∀ b, getBool (ofBool b) = b
  elements_array : ∀ l, elements (array l) = l

namespace Semantics

variable {V : Type*} (S : Semantics V)

/-- The truth value of a boolean. -/
def truth (v : Option V) : Option Bool := v.map S.getBool

/-- The boolean with a truth value. -/
def ofTruth (t : Option Bool) : Option V := t.map S.ofBool

@[simp] theorem truth_ofTruth (t : Option Bool) : S.truth (S.ofTruth t) = t := by
  cases t <;> simp [truth, ofTruth, S.getBool_ofBool]

end Semantics

/-- The result of a boolean test. -/
def BoolTestType.test : BoolTestType → Option Bool → Bool
  | isTrue, t => t = some true
  | isNotTrue, t => t ≠ some true
  | isFalse, t => t = some false
  | isNotFalse, t => t ≠ some false
  | isUnknown, t => t = none
  | isNotUnknown, t => t ≠ none

/-- The result of a null test that does not look into rows. -/
def NullTestType.test {V : Type*} : NullTestType → Option V → Bool
  | isNull, v => v.isNone
  | isNotNull, v => v.isSome

/-- The truth value of a boolean combination. -/
def BoolExprType.apply : BoolExprType → List (Option Bool) → Option Bool
  | and, l => and3 l
  | or, l => or3 l
  | not, l => not3 (l.headD none)

section Eval

variable {V : Type*} (S : Semantics V) (v : ℕ → Option V)

mutual

/-- The value of an expression under an assignment. -/
def eval : Expr V → Option V
  | .other id => v id
  | .const c => c.constvalue
  | .opExpr opno coll args => S.op opno coll (evalList args)
  | .funcExpr funcid coll args => S.func funcid coll (evalList args)
  | .relabelType _ arg => eval arg
  | .coerce kind arg => (eval arg).bind (S.coerce kind)
  | .scalarArrayOpExpr opno useOr coll scalar array =>
    (eval array).bind fun a =>
      let results := (S.elements a).map fun e => S.truth (S.op opno coll [eval scalar, e])
      S.ofTruth (if useOr then or3 results else and3 results)
  | .arrayExpr multidims elements =>
    if multidims then S.multiArray (evalList elements) else some (S.array (evalList elements))
  | .boolExpr boolop args => S.ofTruth (boolop.apply ((evalList args).map S.truth))
  | .booleanTest t arg => some (S.ofBool (t.test (S.truth (eval arg))))
  | .nullTest t argisrow arg =>
    some (S.ofBool (if argisrow then S.rowTest t (eval arg) else t.test (eval arg)))
  | .list items => S.ofTruth (and3 ((evalList items).map S.truth))
  | .restrictInfo clause => eval clause

/-- The values of a list of expressions. -/
def evalList : List (Expr V) → List (Option V)
  | [] => []
  | e :: es => eval e :: evalList es

end

theorem evalList_eq_map (es : List (Expr V)) : evalList S v es = es.map (eval S v) := by
  induction es with
  | nil => rw [evalList, List.map_nil]
  | cons _ _ ih => rw [evalList, ih, List.map_cons]

/-- The truth value of a boolean expression. -/
def holds (e : Expr V) : Option Bool := S.truth (eval S v e)

theorem holds_not (arg : Expr V) (args : List (Expr V)) :
    holds S v (.boolExpr .not (arg :: args)) = not3 (holds S v arg) := by
  simp [holds, eval, evalList, BoolExprType.apply]

theorem holds_booleanTest (t : BoolTestType) (arg : Expr V) :
    holds S v (.booleanTest t arg) = some (t.test (holds S v arg)) := by
  simp [holds, eval, Semantics.truth, S.getBool_ofBool]

theorem holds_nullTest (t : NullTestType) (arg : Expr V) :
    holds S v (.nullTest t false arg) = some (t.test (eval S v arg)) := by
  simp [holds, eval, Semantics.truth, S.getBool_ofBool]

end Eval

/-!
## Operators in the system catalogs

What `predtest.c` asks the catalogs about operators: strictness, commutators, negators, and the
btree operator families that an operator belongs to.
-/

/-- The btree strategies and, as `ROWCOMPARE_NE`, the negation of equality. -/
inductive BtStrategy
  | lt
  | le
  | eq
  | ge
  | gt
  | ne
  deriving DecidableEq, Repr

namespace BtStrategy

/-- One row of an operator table. -/
def columns {α : Type*} (forLt forLe forEq forGe forGt forNe : α) : BtStrategy → α
  | lt => forLt
  | le => forLe
  | eq => forEq
  | ge => forGe
  | gt => forGt
  | ne => forNe

/-- The strategy with a number in `pg_amop`. -/
def ofNumber : ℕ → Option BtStrategy
  | 1 => some lt
  | 2 => some le
  | 3 => some eq
  | 4 => some ge
  | 5 => some gt
  | _ => none

end BtStrategy

section Tables

open BtStrategy

/-- `BT_implies_table`: the rows are for the clause operator, the columns for the predicate
operator. -/
def btImpliesTable : BtStrategy → BtStrategy → Bool
  | lt => columns true true false false false true
  | le => columns false true false false false false
  | eq => columns false true true true false false
  | ge => columns false false false true false false
  | gt => columns false false false true true true
  | ne => columns false false false false false true

/-- `BT_refutes_table`. -/
def btRefutesTable : BtStrategy → BtStrategy → Bool
  | lt => columns false false true true true false
  | le => columns false false false false true false
  | eq => columns true false false false true true
  | ge => columns true false false false false false
  | gt => columns true true true false false false
  | ne => columns false false true false false false

/-- `BT_implic_table`. -/
def btImplicTable : BtStrategy → BtStrategy → Option BtStrategy
  | lt => columns (some ge) (some ge) none none none (some ge)
  | le => columns (some gt) (some ge) none none none (some gt)
  | eq => columns (some gt) (some ge) (some eq) (some le) (some lt) (some ne)
  | ge => columns none none none (some le) (some lt) (some lt)
  | gt => columns none none none (some le) (some le) (some le)
  | ne => columns none none none none none (some eq)

/-- `BT_refute_table`. -/
def btRefuteTable : BtStrategy → BtStrategy → Option BtStrategy
  | lt => columns none none (some ge) (some ge) (some ge) none
  | le => columns none none (some gt) (some gt) (some ge) none
  | eq => columns (some le) (some lt) (some ne) (some gt) (some ge) (some eq)
  | ge => columns (some le) (some lt) (some lt) none none none
  | gt => columns (some le) (some le) (some le) none none none
  | ne => columns none none (some eq) none none none

/-- Whether the clause operator proves the predicate operator, or its negation, on the same
operands. -/
def sameSubexprsTable (refuteIt : Bool) (clauseOp predOp : BtStrategy) : Bool :=
  if refuteIt then btRefutesTable clauseOp predOp else btImpliesTable clauseOp predOp

/-- The comparison of the constants that proves it on different ones. -/
def testStrategyTable (refuteIt : Bool) (clauseOp predOp : BtStrategy) : Option BtStrategy :=
  if refuteIt then btRefuteTable clauseOp predOp else btImplicTable clauseOp predOp

end Tables

/-- A row of `pg_amop`. -/
structure PgAmop where
  amopmethod : Oid
  amopfamily : Oid
  amoplefttype : Oid
  amoprighttype : Oid
  amopstrategy : ℕ
  amopopr : Oid
  deriving DecidableEq, Repr

/-- The oid of the access method of B-trees. -/
def btreeAmOid : Oid := 403

/-- The oid of the equality of booleans. -/
def booleanEqualOperator : Oid := 91

/-- The catalogs. An invalid operator is `none`. -/
structure Catalog where
  /-- `op_strict`. -/
  opStrict : Oid → Bool
  /-- `func_strict`. -/
  funcStrict : Oid → Bool
  /-- `op_volatile` is `PROVOLATILE_IMMUTABLE`. -/
  opImmutable : Oid → Bool
  getCommutator : Oid → Option Oid
  getNegator : Oid → Option Oid
  pgAmop : List PgAmop

/-- The role of an operator in an operator family. -/
structure OpBtreeInterpretation where
  opfamilyId : Oid
  strategy : BtStrategy
  oplefttype : Oid
  oprighttype : Oid
  deriving DecidableEq, Repr

namespace Catalog

variable (cat : Catalog)

/-- The btree rows of an operator, with their strategies. -/
def btreeRows (opno : Oid) : List OpBtreeInterpretation :=
  cat.pgAmop.filterMap fun row =>
    if row.amopopr = opno ∧ row.amopmethod = btreeAmOid then
      (BtStrategy.ofNumber row.amopstrategy).map fun strategy =>
        ⟨row.amopfamily, strategy, row.amoplefttype, row.amoprighttype⟩
    else none

/-- `get_op_btree_interpretation`. An operator that is in no family may be the negator of an
equality operator. -/
def getOpBtreeInterpretation (opno : Oid) : List OpBtreeInterpretation :=
  match cat.btreeRows opno with
  | [] =>
    match cat.getNegator opno with
    | none => []
    | some negator =>
      ((cat.btreeRows negator).filter (·.strategy = .eq)).map fun info =>
        { info with strategy := .ne }
  | infos => infos

/-- `get_opfamily_member`. -/
def getOpfamilyMember (opfamily lefttype righttype : Oid) (strategy : BtStrategy) : Option Oid :=
  (cat.pgAmop.find? fun row =>
    row.amopfamily = opfamily ∧ row.amoplefttype = lefttype ∧ row.amoprighttype = righttype ∧
      BtStrategy.ofNumber row.amopstrategy = some strategy).map (·.amopopr)

/-- The operator for a test strategy and the types of the constants. -/
def getTestOp (opfamily lefttype righttype : Oid) : BtStrategy → Option Oid
  | .ne => (cat.getOpfamilyMember opfamily lefttype righttype .eq).bind cat.getNegator
  | strategy => cat.getOpfamilyMember opfamily lefttype righttype strategy

/-- The loop of `lookup_proof_cache` over the interpretations of the predicate operator and
the clause operator. It ends with the first usable test operator. -/
def scanInterpretations (refuteIt : Bool) :
    List (OpBtreeInterpretation × OpBtreeInterpretation) → Bool → Bool × Option Oid
  | [], same => (same, none)
  | (predInfo, clauseInfo) :: rest, same =>
    if predInfo.opfamilyId ≠ clauseInfo.opfamilyId then scanInterpretations refuteIt rest same
    else
      let same := same || sameSubexprsTable refuteIt clauseInfo.strategy predInfo.strategy
      let testOp := (testStrategyTable refuteIt clauseInfo.strategy predInfo.strategy).bind
        (cat.getTestOp predInfo.opfamilyId predInfo.oprighttype clauseInfo.oprighttype)
      match testOp with
      | none => scanInterpretations refuteIt rest same
      | some op =>
        if cat.opImmutable op then (same, some op) else scanInterpretations refuteIt rest same

/-- `lookup_proof_cache`: whether the operators prove something on the same operands, and the
test operator for constants. -/
def lookupProofCache (predOp clauseOp : Oid) (refuteIt : Bool) : Bool × Option Oid :=
  let predInfos := cat.getOpBtreeInterpretation predOp
  let clauseInfos := cat.getOpBtreeInterpretation clauseOp
  let pairs := predInfos.flatMap fun p => clauseInfos.map fun c => (p, c)
  let (same, testOp) := cat.scanInterpretations refuteIt pairs false
  (same && cat.opImmutable clauseOp, testOp)

/-- `operator_same_subexprs_proof`. -/
def operatorSameSubexprsProof (predOp clauseOp : Oid) (refuteIt : Bool) : Bool :=
  if refuteIt then
    cat.getNegator predOp = some clauseOp || (cat.lookupProofCache predOp clauseOp refuteIt).1
  else predOp = clauseOp || (cat.lookupProofCache predOp clauseOp refuteIt).1

/-- `get_btree_test_op`. -/
def getBtreeTestOp (predOp clauseOp : Oid) (refuteIt : Bool) : Option Oid :=
  (cat.lookupProofCache predOp clauseOp refuteIt).2

end Catalog

/-!
## Implication and refutation of predicates

The proof procedures of `predtest.c`.
-/

/-- What the planner works with: the catalogs, the operations on values, and whether two
nodes are the same one in memory. -/
structure Planner (V : Type*) where
  cat : Catalog
  S : Semantics V
  sameNode : Expr V → Expr V → Bool

/-- The longest array that is taken apart. -/
def maxSaopArraySize : ℕ := 100

/-- How `predicate_classify` sees an expression. -/
inductive PredClass
  | atom
  | and
  | or
  deriving DecidableEq, Repr

/-- Look through a `RelabelType`. -/
def stripRelabel {V : Type*} : Expr V → Expr V
  | .relabelType _ arg => arg
  | e => e

/-- Skip through a `RestrictInfo`. -/
def skipRestrictInfo {V : Type*} : Expr V → Expr V
  | .restrictInfo clause => clause
  | e => e

/-- `extract_not_arg`: the expression whose non-truth a clause asserts. -/
def extractNotArg {V : Type*} : Expr V → Option (Expr V)
  | .boolExpr .not args => args.head?
  | .booleanTest .isNotTrue arg => some arg
  | .booleanTest .isFalse arg => some arg
  | .booleanTest .isUnknown arg => some arg
  | _ => none

/-- `extract_strong_not_arg`: the expression whose falsity a clause asserts. -/
def extractStrongNotArg {V : Type*} : Expr V → Option (Expr V)
  | .boolExpr .not args => args.head?
  | .booleanTest .isFalse arg => some arg
  | _ => none

namespace Planner

variable {V : Type*} (P : Planner V)

/-! ### Conjunctions and disjunctions -/

/-- The class of an array comparison. -/
def saopClass (useOr : Bool) : PredClass := if useOr then .or else .and

/-- `predicate_classify`. An array with too many elements is not taken apart. -/
def predicateClassify : Expr V → PredClass
  | .list _ => .and
  | .boolExpr .and _ => .and
  | .boolExpr .or _ => .or
  | .scalarArrayOpExpr _ useOr _ _ (.const c) =>
    match c.constvalue with
    | none => .atom
    | some a => if (P.S.elements a).length ≤ maxSaopArraySize then saopClass useOr else .atom
  | .scalarArrayOpExpr _ useOr _ _ (.arrayExpr false elements) =>
    if elements.length ≤ maxSaopArraySize then saopClass useOr else .atom
  | _ => .atom

/-- The constant for an element of a constant array. -/
def elementConst (arrayconst : Const V) (array : V) (element : Option V) : Const V where
  consttype := P.S.elemType array
  consttypmod := -1
  constcollid := arrayconst.constcollid
  constvalue := element

/-- The components over which the startup and next functions iterate. -/
def components : Expr V → List (Expr V)
  | .list items => items
  | .boolExpr .and args => args
  | .boolExpr .or args => args
  | .scalarArrayOpExpr opno _ coll scalar (.const c) =>
    match c.constvalue with
    | none => []
    | some a => (P.S.elements a).map fun element =>
        .opExpr opno coll [scalar, .const (P.elementConst c a element)]
  | .scalarArrayOpExpr opno _ coll scalar (.arrayExpr false elements) =>
    elements.map fun element => .opExpr opno coll [scalar, element]
  | _ => []

/-! ### Strictness -/

section Strict

variable [DecidableEq V]

/-- Whether an array operand is known to be NULL, or not to be empty. -/
def arrayNeverEmpty : Expr V → Bool
  | .const c =>
    match c.constvalue with
    | none => true
    | some a => (P.S.elements a).length > 0
  | .arrayExpr false elements => elements.length > 0
  | _ => false

mutual

/-- `clause_is_strict_for`, before or after it has looked through `RelabelType` nodes. -/
def strictFor (stripped : Bool) : Expr V → Expr V → Bool → Bool
  | .relabelType t arg, subexpr, allowFalse =>
    if stripped then Expr.equal (.relabelType t arg) subexpr
    else strictFor true arg (stripRelabel subexpr) allowFalse
  | .opExpr opno coll args, subexpr, _ =>
    let subexpr := if stripped then subexpr else stripRelabel subexpr
    Expr.equal (.opExpr opno coll args) subexpr ||
      P.cat.opStrict opno && anyStrictFor args subexpr
  | .funcExpr funcid coll args, subexpr, _ =>
    let subexpr := if stripped then subexpr else stripRelabel subexpr
    Expr.equal (.funcExpr funcid coll args) subexpr ||
      P.cat.funcStrict funcid && anyStrictFor args subexpr
  | .coerce kind arg, subexpr, _ =>
    let subexpr := if stripped then subexpr else stripRelabel subexpr
    Expr.equal (.coerce kind arg) subexpr || strictFor false arg subexpr false
  | .scalarArrayOpExpr opno useOr coll scalar array, subexpr, allowFalse =>
    let subexpr := if stripped then subexpr else stripRelabel subexpr
    Expr.equal (.scalarArrayOpExpr opno useOr coll scalar array) subexpr ||
      strictFor false scalar subexpr false && P.cat.opStrict opno &&
        (allowFalse && useOr || P.arrayNeverEmpty array) ||
      strictFor false array subexpr false
  | .const c, subexpr, _ =>
    let subexpr := if stripped then subexpr else stripRelabel subexpr
    Expr.equal (.const c) subexpr || c.constisnull
  | clause, subexpr, _ =>
    let subexpr := if stripped then subexpr else stripRelabel subexpr
    Expr.equal clause subexpr

/-- Some argument is strict for the subexpression. -/
def anyStrictFor : List (Expr V) → Expr V → Bool
  | [], _ => false
  | arg :: args, subexpr => strictFor false arg subexpr false || anyStrictFor args subexpr

end

/-- `clause_is_strict_for`: the clause is NULL, or false when that is allowed, if the
sub-expression is NULL. -/
def clauseIsStrictFor (clause subexpr : Expr V) (allowFalse : Bool) : Bool :=
  P.strictFor false clause subexpr allowFalse

end Strict

/-! ### Operator clauses -/

/-- How the operands of two operator clauses match up: both are the same, or one of them is
and the others are constants. The operators are commuted to bring the same operands
to the same sides, with constants on the right. -/
inductive OperandMatch (V : Type*)
  | same (predOp clauseOp : Oid)
  | consts (predOp clauseOp : Oid) (predConst clauseConst : Const V)

section Operators

variable [DecidableEq V]

/-- The operands of two operator clauses, matched up. -/
def matchOperands (predOp clauseOp : Oid) (predLeft predRight clauseLeft clauseRight : Expr V) :
    Option (OperandMatch V) :=
  if Expr.equal predLeft clauseLeft then
    if Expr.equal predRight clauseRight then some (.same predOp clauseOp)
    else
      match predRight, clauseRight with
      | .const p, .const c => some (.consts predOp clauseOp p c)
      | _, _ => none
  else if Expr.equal predRight clauseRight then
    match predLeft, clauseLeft with
    | .const p, .const c =>
      (P.cat.getCommutator predOp).bind fun predOp =>
        (P.cat.getCommutator clauseOp).map fun clauseOp => .consts predOp clauseOp p c
    | _, _ => none
  else if Expr.equal predLeft clauseRight then
    if Expr.equal predRight clauseLeft then
      (P.cat.getCommutator predOp).map fun predOp => .same predOp clauseOp
    else
      match predRight, clauseLeft with
      | .const p, .const c =>
        (P.cat.getCommutator clauseOp).map fun clauseOp => .consts predOp clauseOp p c
      | _, _ => none
  else if Expr.equal predRight clauseLeft then
    match predLeft, clauseRight with
    | .const p, .const c =>
      (P.cat.getCommutator predOp).map fun predOp => .consts predOp clauseOp p c
    | _, _ => none
  else none

/-- The proof from the constants: from NULLs, or from the result of the test operator. -/
def constsProof (predOp clauseOp collation : Oid) (predConst clauseConst : Const V)
    (refuteIt weak : Bool) : Bool :=
  if clauseConst.constisnull then
    if !P.cat.opStrict clauseOp then false
    else if !(weak && !refuteIt) then true
    else predConst.constisnull && P.cat.opStrict predOp
  else if predConst.constisnull then weak && P.cat.opStrict predOp
  else
    match P.cat.getBtreeTestOp predOp clauseOp refuteIt with
    | none => false
    | some testOp =>
      match P.S.op testOp collation [predConst.constvalue, clauseConst.constvalue] with
      | none => false
      | some result => P.S.getBool result

/-- `operator_predicate_proof`. -/
def operatorPredicateProof (predicate clause : Expr V) (refuteIt weak : Bool) : Bool :=
  match predicate, clause with
  | .opExpr predOp predCollation [predLeft, predRight],
    .opExpr clauseOp clauseCollation [clauseLeft, clauseRight] =>
    if predCollation ≠ clauseCollation then false
    else
      match P.matchOperands predOp clauseOp predLeft predRight clauseLeft clauseRight with
      | none => false
      | some (.same predOp clauseOp) => P.cat.operatorSameSubexprsProof predOp clauseOp refuteIt
      | some (.consts predOp clauseOp predConst clauseConst) =>
        P.constsProof predOp clauseOp predCollation predConst clauseConst refuteIt weak
  | _, _ => false

/-! ### Atoms -/

/-- "X = true" implies "X", and "X = false" implies "NOT X". -/
def impliedByBooleanEqual (predicate clause : Expr V) : Bool :=
  match clause with
  | .opExpr opno _ [leftop, .const c] =>
    opno = booleanEqualOperator &&
      match c.constvalue with
      | none => false
      | some value =>
        if P.S.getBool value then Expr.equal predicate leftop
        else
          match predicate with
          | .boolExpr .not (arg :: _) => Expr.equal arg leftop
          | _ => false
  | _ => false

/-- `predicate_implied_by_simple_clause`. -/
def predicateImpliedBySimpleClause (predicate clause : Expr V) (weak : Bool) : Bool :=
  Expr.equal predicate clause || P.impliedByBooleanEqual predicate clause ||
    (match predicate with
      | .nullTest .isNotNull argisrow arg =>
        !weak && !argisrow && P.clauseIsStrictFor clause arg true
      | _ => false) ||
    P.operatorPredicateProof predicate clause false weak

/-- `predicate_refuted_by_simple_clause` for a clause "foo IS NULL". -/
def refutedByIsNull (predicate arg : Expr V) (weak : Bool) : Bool :=
  match predicate with
  | .nullTest predtest predisrow predarg =>
    if predisrow then false
    else predtest = .isNotNull && Expr.equal predarg arg ||
      weak && P.clauseIsStrictFor predicate arg true
  | _ => weak && P.clauseIsStrictFor predicate arg true

/-- `predicate_refuted_by_simple_clause` for a predicate "foo IS NULL". -/
def isNullRefutedBy (arg clause : Expr V) : Bool :=
  match clause with
  | .nullTest clausetest clauseisrow clausearg =>
    if clauseisrow then false
    else clausetest = .isNotNull && Expr.equal clausearg arg || P.clauseIsStrictFor clause arg true
  | _ => P.clauseIsStrictFor clause arg true

/-- `predicate_refuted_by_simple_clause`. -/
def predicateRefutedBySimpleClause (predicate clause : Expr V) (weak : Bool) : Bool :=
  if P.sameNode predicate clause then false
  else
    match clause, predicate with
    | .nullTest _ true _, _ => false
    | .nullTest .isNull false arg, predicate => P.refutedByIsNull predicate arg weak
    | _, .nullTest _ true _ => false
    | clause, .nullTest .isNull false arg => P.isNullRefutedBy arg clause
    | _, .nullTest .isNotNull false _ => false
    | clause, predicate => P.operatorPredicateProof predicate clause true weak

end Operators

/-! ### Recursion -/

/-- A component is smaller. -/
theorem weight_lt_of_mem_components {e item : Expr V} (h : item ∈ P.components e) :
    item.weight < e.weight := by
  unfold components at h
  split at h
  case h_1 | h_2 | h_3 =>
    exact Nat.lt_of_le_of_lt (Expr.weight_le_weightList h) (by rw [Expr.weight]; omega)
  · split at h
    · cases h
    · obtain ⟨_, -, rfl⟩ := List.mem_map.mp h
      simp only [Expr.weight, Expr.weightList]
      omega
  · obtain ⟨_, hmem, rfl⟩ := List.mem_map.mp h
    have := Expr.weight_le_weightList hmem
    simp only [Expr.weight, Expr.weightList]
    omega
  · cases h

theorem weight_skipRestrictInfo_le (e : Expr V) : (skipRestrictInfo e).weight ≤ e.weight := by
  cases e <;> simp [skipRestrictInfo, Expr.weight]

section Recursion

variable [DecidableEq V]

/-- `predicate_implied_by_recurse`. -/
def predicateImpliedByRecurse (clause predicate : Expr V) (weak : Bool) : Bool :=
  let c := skipRestrictInfo clause
  match P.predicateClassify c, P.predicateClassify predicate with
  | .and, .and =>
    (P.components predicate).attach.all fun pitem => predicateImpliedByRecurse c pitem.1 weak
  | .and, .or =>
    ((P.components predicate).attach.any fun pitem => predicateImpliedByRecurse c pitem.1 weak) ||
      (P.components c).attach.any fun citem => predicateImpliedByRecurse citem.1 predicate weak
  | .and, .atom =>
    (P.components c).attach.any fun citem => predicateImpliedByRecurse citem.1 predicate weak
  | .or, .or =>
    (P.components c).attach.all fun citem =>
      (P.components predicate).attach.any fun pitem =>
        predicateImpliedByRecurse citem.1 pitem.1 weak
  | .or, _ =>
    (P.components c).attach.all fun citem => predicateImpliedByRecurse citem.1 predicate weak
  | .atom, .and =>
    (P.components predicate).attach.all fun pitem => predicateImpliedByRecurse c pitem.1 weak
  | .atom, .or =>
    (P.components predicate).attach.any fun pitem => predicateImpliedByRecurse c pitem.1 weak
  | .atom, .atom => P.predicateImpliedBySimpleClause predicate c weak
termination_by clause.weight + predicate.weight
decreasing_by
  all_goals
    have hskip := weight_skipRestrictInfo_le clause
  all_goals
    first
    | have hp := P.weight_lt_of_mem_components pitem.2
      have hc := P.weight_lt_of_mem_components (e := skipRestrictInfo clause) citem.2
      omega
    | have hp := P.weight_lt_of_mem_components pitem.2
      omega
    | have hc := P.weight_lt_of_mem_components (e := skipRestrictInfo clause) citem.2
      omega

/-- `predicate_refuted_by_recurse`. -/
def predicateRefutedByRecurse (clause predicate : Expr V) (weak : Bool) : Bool :=
  let c := skipRestrictInfo clause
  -- A R=> NOT B if A => B
  let impliesNotArg := (extractNotArg predicate).any fun arg =>
    P.predicateImpliedByRecurse c arg false
  match P.predicateClassify c, P.predicateClassify predicate with
  | .and, .and =>
    ((P.components predicate).attach.any fun pitem => predicateRefutedByRecurse c pitem.1 weak) ||
      (P.components c).attach.any fun citem => predicateRefutedByRecurse citem.1 predicate weak
  | .and, .or =>
    (P.components predicate).attach.all fun pitem => predicateRefutedByRecurse c pitem.1 weak
  | .and, .atom => impliesNotArg ||
    (P.components c).attach.any fun citem => predicateRefutedByRecurse citem.1 predicate weak
  | .or, .or =>
    (P.components predicate).attach.all fun pitem => predicateRefutedByRecurse c pitem.1 weak
  | .or, .and =>
    (P.components c).attach.all fun citem =>
      (P.components predicate).attach.any fun pitem =>
        predicateRefutedByRecurse citem.1 pitem.1 weak
  | .or, .atom => impliesNotArg ||
    (P.components c).attach.all fun citem => predicateRefutedByRecurse citem.1 predicate weak
  | .atom, pclass =>
    -- NOT A R=> B if B => A
    ((extractStrongNotArg c).any fun arg => P.predicateImpliedByRecurse predicate arg !weak) ||
      match pclass with
      | .and =>
        (P.components predicate).attach.any fun pitem => predicateRefutedByRecurse c pitem.1 weak
      | .or =>
        (P.components predicate).attach.all fun pitem => predicateRefutedByRecurse c pitem.1 weak
      | .atom => impliesNotArg || P.predicateRefutedBySimpleClause predicate c weak
termination_by clause.weight + predicate.weight
decreasing_by
  all_goals
    have hskip := weight_skipRestrictInfo_le clause
  all_goals
    first
    | have hp := P.weight_lt_of_mem_components pitem.2
      have hc := P.weight_lt_of_mem_components (e := skipRestrictInfo clause) citem.2
      omega
    | have hp := P.weight_lt_of_mem_components pitem.2
      omega
    | have hc := P.weight_lt_of_mem_components (e := skipRestrictInfo clause) citem.2
      omega

/-- A list of one element is replaced with that element. -/
def fromList : List (Expr V) → Expr V
  | [e] => e
  | es => .list es

/-- `predicate_implied_by`. -/
def predicateImpliedBy (predicateList clauseList : List (Expr V)) (weak : Bool) : Bool :=
  if predicateList.isEmpty then true
  else if clauseList.isEmpty then false
  else P.predicateImpliedByRecurse (fromList clauseList) (fromList predicateList) weak

/-- `predicate_refuted_by`. -/
def predicateRefutedBy (predicateList clauseList : List (Expr V)) (weak : Bool) : Bool :=
  if predicateList.isEmpty then false
  else if clauseList.isEmpty then false
  else P.predicateRefutedByRecurse (fromList clauseList) (fromList predicateList) weak

end Recursion

end Planner

end PgCutover.Predtest
