import Mathlib.Logic.Equiv.List
import PgCutover.Predtest.Procedures

/-!
# Proofs from operators

The catalogs are sound for the operators when strict operators give NULL for NULL, commutators
and negators are what they say, and the operators of a btree family compare values in a
total preorder (`Catalog.Sound`). Then the operator tables are right
(`concludes_of_sameSubexprsTable`, `concludes_of_testStrategyTable`), and so is everything
that `operator_predicate_proof` concludes from them
(`Planner.operatorPredicateProof_sound`).
-/

namespace PgCutover.Predtest

open Lib List

variable {V : Type*}

/-! ### The operator tables -/

/-- The comparison of two values with a strategy. -/
def BtStrategy.Holds (r : V → V → Prop) (a b : V) : BtStrategy → Prop
  | .lt => ¬ r b a
  | .le => r a b
  | .eq => r a b ∧ r b a
  | .ge => r b a
  | .gt => ¬ r a b
  | .ne => ¬ (r a b ∧ r b a)

/-- The order of a B-tree. -/
structure TotalPreorder (r : V → V → Prop) : Prop where
  total : ∀ a b, r a b ∨ r b a
  trans : ∀ a b c, r a b → r b c → r a c

section Tables

variable {r : V → V → Prop} {c p t : BtStrategy} {a b x : V} {refuteIt : Bool}

open BtStrategy

/-- The tables for equal operands are right in every total preorder. -/
theorem concludes_of_sameSubexprsTable (hr : TotalPreorder r)
    (h : sameSubexprsTable refuteIt c p = true) (hc : c.Holds r a b) :
    Concludes refuteIt (p.Holds r a b) := by
  have htotal := hr.total a b
  cases refuteIt <;> cases c <;> cases p <;>
    simp_all [sameSubexprsTable, btImpliesTable, btRefutesTable, columns, BtStrategy.Holds,
      Concludes]

/-- So are the tables for different constants. -/
theorem concludes_of_testStrategyTable (hr : TotalPreorder r)
    (h : testStrategyTable refuteIt c p = some t) (ht : t.Holds r b a) (hc : c.Holds r x a) :
    Concludes refuteIt (p.Holds r x b) := by
  have htotal := hr.total
  have htrans := hr.trans
  cases refuteIt <;> cases c <;> cases p <;>
    simp [testStrategyTable, btImplicTable, btRefuteTable, columns] at h <;>
    subst h <;> simp only [BtStrategy.Holds, Concludes] at ht hc ⊢ <;> grind

end Tables

/-! ### Sound catalogs -/

/-- An operator that compares values with a strategy. It gives NULL for NULL, and only
then. -/
structure Compares (S : Semantics V) (opno coll : Oid) (r : V → V → Prop) (s : BtStrategy) :
    Prop where
  isTrue : ∀ a b, S.truth (S.op opno coll [some a, some b]) = some true ↔ s.Holds r a b
  notNull : ∀ a b, S.truth (S.op opno coll [some a, some b]) ≠ none
  leftNull : ∀ y, S.truth (S.op opno coll [none, y]) = none
  rightNull : ∀ x, S.truth (S.op opno coll [x, none]) = none

/-- The operators of a family compare values in one order. -/
structure BtreeFamily (cat : Catalog) (S : Semantics V) (family coll : Oid)
    (r : V → V → Prop) : Prop where
  order : TotalPreorder r
  compares : ∀ row ∈ cat.pgAmop, row.amopfamily = family →
    ∀ s, BtStrategy.ofNumber row.amopstrategy = some s → Compares S row.amopopr coll r s

/-- What the catalogs say about operators and functions is true of them. -/
structure Catalog.Sound (cat : Catalog) (S : Semantics V) : Prop where
  opStrict : ∀ opno coll args, cat.opStrict opno = true → none ∈ args → S.op opno coll args = none
  funcStrict : ∀ funcid coll args,
    cat.funcStrict funcid = true → none ∈ args → S.func funcid coll args = none
  commutator : ∀ opno commutator coll x y, cat.getCommutator opno = some commutator →
    S.truth (S.op commutator coll [y, x]) = S.truth (S.op opno coll [x, y])
  negator : ∀ opno negator coll x y, cat.getNegator opno = some negator →
    S.truth (S.op negator coll [x, y]) = not3 (S.truth (S.op opno coll [x, y]))
  btree : ∀ row ∈ cat.pgAmop, row.amopmethod = btreeAmOid →
    ∀ coll, ∃ r, BtreeFamily cat S row.amopfamily coll r
  booleanEqual : ∀ coll x y, S.truth (S.op booleanEqualOperator coll [x, y]) =
    (S.truth x).bind fun a => (S.truth y).map fun b => a == b

section Family

variable {cat : Catalog} {S : Semantics V} {opno negator coll family : Oid} {r : V → V → Prop}

/-- An operator whose negator is an equality operator compares for inequality. -/
theorem Compares.ne_of_negator (h : Compares S negator coll r .eq)
    (hneg : ∀ x y, S.truth (S.op negator coll [x, y]) = not3 (S.truth (S.op opno coll [x, y]))) :
    Compares S opno coll r .ne := by
  have hop : ∀ x y, S.truth (S.op opno coll [x, y]) =
      not3 (S.truth (S.op negator coll [x, y])) := fun x y => by rw [hneg, not3_not3]
  constructor
  · intro a b
    change _ ↔ ¬ BtStrategy.Holds r a b .eq
    rw [hop, ← h.isTrue a b]
    cases ht : S.truth (S.op negator coll [some a, some b]) with
    | none => exact absurd ht (h.notNull a b)
    | some t => cases t <;> simp [not3]
  · intro a b hnone
    rw [hop] at hnone
    exact h.notNull a b (Option.map_eq_none_iff.mp hnone)
  · intro y
    rw [hop, h.leftNull]
    rfl
  · intro x
    rw [hop, h.rightNull]
    rfl

theorem Catalog.mem_btreeRows {info : OpBtreeInterpretation} (h : info ∈ cat.btreeRows opno) :
    ∃ row ∈ cat.pgAmop, row.amopopr = opno ∧ row.amopmethod = btreeAmOid ∧
      row.amopfamily = info.opfamilyId ∧
      BtStrategy.ofNumber row.amopstrategy = some info.strategy := by
  obtain ⟨row, hmem, hrow⟩ := mem_filterMap.mp h
  split_ifs at hrow with hop
  obtain ⟨s, hs, rfl⟩ := Option.map_eq_some_iff.mp hrow
  exact ⟨row, hmem, hop.1, hop.2, rfl, hs⟩

/-- An interpretation of an operator comes from a row of the operator or, with the strategy
for inequality, from a row of its negator for equality. -/
theorem Catalog.mem_getOpBtreeInterpretation {info : OpBtreeInterpretation}
    (h : info ∈ cat.getOpBtreeInterpretation opno) :
    info ∈ cat.btreeRows opno ∨
      info.strategy = .ne ∧ ∃ negator, cat.getNegator opno = some negator ∧
      { info with strategy := .eq } ∈ cat.btreeRows negator := by
  unfold getOpBtreeInterpretation at h
  split at h
  · split at h
    · cases h
    · rename_i negator hneg
      obtain ⟨row, hrow, rfl⟩ := mem_map.mp h
      obtain ⟨hmem, heq⟩ := mem_filter.mp hrow
      have heq : row.strategy = .eq := of_decide_eq_true heq
      refine .inr ⟨rfl, negator, hneg, ?_⟩
      rw [show ({ row with strategy := .eq } : OpBtreeInterpretation) = row from by rw [← heq]]
      exact hmem
  · exact .inl h

namespace Catalog.Sound

/-- An operator with an interpretation belongs to an order. -/
theorem exists_order (hs : cat.Sound S) (coll : Oid) {info : OpBtreeInterpretation}
    (h : info ∈ cat.getOpBtreeInterpretation opno) :
    ∃ r, BtreeFamily cat S info.opfamilyId coll r := by
  rcases mem_getOpBtreeInterpretation h with hrow | ⟨-, _, -, hrow⟩
  all_goals
    obtain ⟨row, hmem, -, hmethod, hfamily, -⟩ := mem_btreeRows hrow
    exact hfamily ▸ hs.btree row hmem hmethod coll

/-- An operator compares values as its interpretation says. -/
theorem compares_interpretation (hs : cat.Sound S) (hf : BtreeFamily cat S family coll r)
    {info : OpBtreeInterpretation} (h : info ∈ cat.getOpBtreeInterpretation opno)
    (hfamily : info.opfamilyId = family) : Compares S opno coll r info.strategy := by
  rcases mem_getOpBtreeInterpretation h with hrow | ⟨hne, negator, hneg, hrow⟩
  all_goals obtain ⟨row, hmem, rfl, -, hrf, hstrategy⟩ := mem_btreeRows hrow
  · exact hf.compares row hmem (hrf.trans hfamily) _ hstrategy
  · rw [hne]
    exact (hf.compares row hmem (hrf.trans hfamily) _ hstrategy).ne_of_negator
      fun x y => hs.negator _ _ coll x y hneg

/-- A member of the family compares by the order. -/
theorem compares_opfamilyMember (hf : BtreeFamily cat S family coll r) {lefttype righttype : Oid}
    {s : BtStrategy} (h : cat.getOpfamilyMember family lefttype righttype s = some opno) :
    Compares S opno coll r s := by
  obtain ⟨row, hfind, rfl⟩ := Option.map_eq_some_iff.mp h
  have hrow := List.find?_some hfind
  rw [decide_eq_true_eq] at hrow
  exact hf.compares row (mem_of_find?_eq_some hfind) hrow.1 s hrow.2.2.2

/-- So does the operator that is evaluated at plan time. -/
theorem compares_testOp (hs : cat.Sound S) (hf : BtreeFamily cat S family coll r)
    {lefttype righttype : Oid} {s : BtStrategy}
    (h : cat.getTestOp family lefttype righttype s = some opno) : Compares S opno coll r s := by
  cases s with
  | ne =>
    obtain ⟨_, hmember, hneg⟩ := Option.bind_eq_some_iff.mp h
    refine (compares_opfamilyMember hf hmember).ne_of_negator fun x y => ?_
    rw [hs.negator _ _ coll x y hneg, not3_not3]
  | lt | le | eq | ge | gt => exact compares_opfamilyMember hf h

end Catalog.Sound

end Family

/-! ### Operators of one family -/

section Lookup

variable {cat : Catalog} {S : Semantics V} {predOp clauseOp testOp coll : Oid}
variable {refuteIt weak : Bool} {pairs : List (OpBtreeInterpretation × OpBtreeInterpretation)}

namespace Catalog

/-- A pair of the list in one family has a property. -/
def PairInFamily (pairs : List (OpBtreeInterpretation × OpBtreeInterpretation))
    (q : OpBtreeInterpretation → OpBtreeInterpretation → Prop) : Prop :=
  ∃ pair ∈ pairs, pair.1.opfamilyId = pair.2.opfamilyId ∧ q pair.1 pair.2

theorem PairInFamily.cons {q : OpBtreeInterpretation → OpBtreeInterpretation → Prop}
    {pair : OpBtreeInterpretation × OpBtreeInterpretation} (h : PairInFamily pairs q) :
    PairInFamily (pair :: pairs) q :=
  h.imp fun _ => And.imp_left (mem_cons_of_mem _)

/-- The scan accepts equal operands because of some pair of interpretations. -/
theorem scanInterpretations_same {same : Bool}
    (h : (cat.scanInterpretations refuteIt pairs same).1 = true) :
    same = true ∨ PairInFamily pairs fun predInfo clauseInfo =>
      sameSubexprsTable refuteIt clauseInfo.strategy predInfo.strategy = true := by
  fun_induction scanInterpretations cat refuteIt pairs same with
  | case1 => exact .inl h
  | case2 _ _ _ _ _ ih => exact (ih h).imp_right .cons
  | case3 _ _ _ _ hfamily _ _ _ ih | case5 _ _ _ _ hfamily _ _ _ _ _ ih =>
    rcases ih h with hsame | hrest
    · exact (Bool.or_eq_true_iff.mp hsame).imp_right fun htable =>
        ⟨_, mem_cons_self, not_not.mp hfamily, htable⟩
    · exact .inr hrest.cons
  | case4 _ _ _ _ hfamily =>
    exact (Bool.or_eq_true_iff.mp h).imp_right fun htable =>
      ⟨_, mem_cons_self, not_not.mp hfamily, htable⟩

/-- The scan finds a test operator because of some pair of interpretations. -/
theorem scanInterpretations_testOp {same : Bool}
    (h : (cat.scanInterpretations refuteIt pairs same).2 = some testOp) :
    PairInFamily pairs fun predInfo clauseInfo => ∃ t lefttype righttype,
      testStrategyTable refuteIt clauseInfo.strategy predInfo.strategy = some t ∧
      cat.getTestOp predInfo.opfamilyId lefttype righttype t = some testOp := by
  fun_induction scanInterpretations cat refuteIt pairs same with
  | case1 => cases h
  | case2 _ _ _ _ _ ih | case3 _ _ _ _ _ _ _ _ ih | case5 _ _ _ _ _ _ _ _ _ _ ih =>
    exact (ih h).cons
  | case4 _ _ _ _ hfamily _ _ _ hop =>
    cases h
    obtain ⟨t, htable, hget⟩ := Option.bind_eq_some_iff.mp hop
    exact ⟨_, mem_cons_self, not_not.mp hfamily, t, _, _, htable, hget⟩

end Catalog

/-- Operators that compare in one order prove what their strategies do. -/
theorem Compares.proves {r : V → V → Prop} {c p : BtStrategy} {a b a' b' : V}
    (hclause : Compares S clauseOp coll r c) (hpred : Compares S predOp coll r p)
    (h : c.Holds r a b → Concludes refuteIt (p.Holds r a' b')) :
    Proves refuteIt weak (S.truth (S.op clauseOp coll [some a, some b]))
      (S.truth (S.op predOp coll [some a', some b'])) := by
  refine .of_concludes (hclause.notNull a b) (hpred.notNull a' b') fun htrue => ?_
  rw [hpred.isTrue]
  exact h ((hclause.isTrue a b).mp htrue)

namespace Catalog.Sound

theorem exists_compares (hs : cat.Sound S) (coll : Oid)
    {pair : OpBtreeInterpretation × OpBtreeInterpretation}
    (hmem : pair ∈ (cat.getOpBtreeInterpretation predOp).flatMap fun p =>
      (cat.getOpBtreeInterpretation clauseOp).map fun c => (p, c))
    (hfamily : pair.1.opfamilyId = pair.2.opfamilyId) :
    ∃ r, BtreeFamily cat S pair.1.opfamilyId coll r ∧
      Compares S predOp coll r pair.1.strategy ∧ Compares S clauseOp coll r pair.2.strategy := by
  obtain ⟨_, hpred, hmap⟩ := mem_flatMap.mp hmem
  obtain ⟨_, hclause, rfl⟩ := mem_map.mp hmap
  obtain ⟨r, hr⟩ := hs.exists_order coll hpred
  exact ⟨r, hr, hs.compares_interpretation hr hpred rfl,
    hs.compares_interpretation hr hclause hfamily.symm⟩

/-- What the cache says of equal operands is a proof. -/
theorem proves_lookupProofCache (hs : cat.Sound S)
    (h : (cat.lookupProofCache predOp clauseOp refuteIt).1 = true) (x y : Option V) :
    Proves refuteIt weak (S.truth (S.op clauseOp coll [x, y]))
      (S.truth (S.op predOp coll [x, y])) := by
  have hscan := (Bool.and_eq_true_iff.mp h).1
  obtain hfalse | ⟨_, hmem, hfamily, htable⟩ := scanInterpretations_same hscan
  · cases hfalse
  obtain ⟨r, hr, hpred, hclause⟩ := hs.exists_compares coll hmem hfamily
  match x, y with
  | none, y =>
    rw [hclause.leftNull, hpred.leftNull]
    exact .null
  | some a, none =>
    rw [hclause.rightNull, hpred.rightNull]
    exact .null
  | some a, some b => exact hclause.proves hpred (concludes_of_sameSubexprsTable hr.order htable)

theorem proves_sameSubexprs (hs : cat.Sound S)
    (h : cat.operatorSameSubexprsProof predOp clauseOp refuteIt = true) (x y : Option V) :
    Proves refuteIt weak (S.truth (S.op clauseOp coll [x, y]))
      (S.truth (S.op predOp coll [x, y])) := by
  unfold operatorSameSubexprsProof at h
  split_ifs at h with hrefute <;> rw [Bool.or_eq_true, decide_eq_true_eq] at h
  · subst hrefute
    rcases h with hneg | hlookup
    · rw [hs.negator _ _ coll x y hneg]
      intro htrue
      cases ht : S.truth (S.op predOp coll [x, y]) with
      | none => simp [ht, not3] at htrue
      | some t => cases t <;> cases weak <;> simp_all [not3]
    · exact hs.proves_lookupProofCache hlookup x y
  · obtain rfl : refuteIt = false := (Bool.not_eq_true _).mp hrefute
    rcases h with rfl | hlookup
    · exact fun hpass => hpass
    · exact hs.proves_lookupProofCache hlookup x y

/-- The test operator decides a proof from constants. -/
theorem proves_testOp (hs : cat.Sound S)
    (h : cat.getBtreeTestOp predOp clauseOp refuteIt = some testOp) {a b : V}
    (htest : S.truth (S.op testOp coll [some b, some a]) = some true) (x : Option V) :
    Proves refuteIt weak (S.truth (S.op clauseOp coll [x, some a]))
      (S.truth (S.op predOp coll [x, some b])) := by
  obtain ⟨_, hmem, hfamily, t, _, _, htable, hget⟩ := scanInterpretations_testOp h
  obtain ⟨r, hr, hpred, hclause⟩ := hs.exists_compares coll hmem hfamily
  match x with
  | none =>
    rw [hclause.leftNull, hpred.leftNull]
    exact .null
  | some x =>
    have hcompares := (hs.compares_testOp hr hget).isTrue b a
    exact hclause.proves hpred
      (concludes_of_testStrategyTable hr.order htable (hcompares.mp htest))

end Catalog.Sound

end Lookup

/-! ### Operator clauses -/

namespace Planner

/-- What a match of operands says about the truth values of two operator clauses. -/
def OperandMatch.Describes (S : Semantics V) (coll : Oid) (predicate clause : Option Bool) :
    OperandMatch V → Prop
  | .same predOp clauseOp => ∃ x y, predicate = S.truth (S.op predOp coll [x, y]) ∧
      clause = S.truth (S.op clauseOp coll [x, y])
  | .consts predOp clauseOp predConst clauseConst => ∃ x,
      predicate = S.truth (S.op predOp coll [x, predConst.constvalue]) ∧
      clause = S.truth (S.op clauseOp coll [x, clauseConst.constvalue])

variable {P : Planner V} {predOp clauseOp coll : Oid} {refuteIt weak : Bool}

/-- A comparison of the two constants is a proof. -/
theorem constsProof_sound (hs : P.cat.Sound P.S) {predConst clauseConst : Const V}
    (h : P.constsProof predOp clauseOp coll predConst clauseConst refuteIt weak = true)
    (x : Option V) :
    Proves refuteIt weak (P.S.truth (P.S.op clauseOp coll [x, clauseConst.constvalue]))
      (P.S.truth (P.S.op predOp coll [x, predConst.constvalue])) := by
  have hnull : ∀ op, P.cat.opStrict op = true → P.S.truth (P.S.op op coll [x, none]) = none :=
    fun op hop => by rw [hs.opStrict op coll _ hop (by simp)]; rfl
  unfold constsProof Const.constisnull at h
  match hc : clauseConst.constvalue, hp : predConst.constvalue with
  | none, p =>
    simp only [hc, hp, Option.isNone_none, if_true] at h
    split_ifs at h with hstrict hweak
    · rw [hnull _ (by simpa using hstrict)]
      exact .of_clause_null (by cases weak <;> cases refuteIt <;> simp_all)
    · rw [Bool.and_eq_true, Option.isNone_iff_eq_none] at h
      obtain rfl := h.1
      rw [hnull _ (by simpa using hstrict), hnull _ h.2]
      exact .null
  | some c, none =>
    simp only [hc, hp, Option.isNone_none, Option.isNone_some, if_true, Bool.false_eq_true,
      if_false, Bool.and_eq_true] at h
    obtain rfl := h.1
    rw [hnull _ h.2]
    exact .of_predicate_null
  | some c, some p =>
    simp only [hc, hp, Option.isNone_some, Bool.false_eq_true, if_false] at h
    split at h
    · cases h
    · rename_i testOp htestOp
      split at h
      · cases h
      · rename_i result hresult
        exact hs.proves_testOp htestOp (by rw [hresult]; exact congrArg some h) x

variable [DecidableEq V]

/-- The operands that are found to match have the values of the two clauses. -/
theorem matchOperands_describes (hs : P.cat.Sound P.S) (v : ℕ → Option V)
    {predLeft predRight clauseLeft clauseRight : Expr V} {m : OperandMatch V}
    (h : P.matchOperands predOp clauseOp predLeft predRight clauseLeft clauseRight = some m) :
    OperandMatch.Describes P.S coll
      (P.S.truth (P.S.op predOp coll [eval P.S v predLeft, eval P.S v predRight]))
      (P.S.truth (P.S.op clauseOp coll [eval P.S v clauseLeft, eval P.S v clauseRight])) m := by
  have hcommute : ∀ {op op' : Oid}, P.cat.getCommutator op = some op' → ∀ x y,
      P.S.truth (P.S.op op coll [x, y]) = P.S.truth (P.S.op op' coll [y, x]) :=
    fun hop x y => (hs.commutator _ _ coll x y hop).symm
  unfold matchOperands at h
  split_ifs at h with hll hrr hrr hlr hrl hrl
  · obtain rfl := Expr.eq_of_equal hll
    obtain rfl := Expr.eq_of_equal hrr
    cases h
    exact ⟨_, _, rfl, rfl⟩
  · obtain rfl := Expr.eq_of_equal hll
    split at h
    · cases h
      exact ⟨_, rfl, rfl⟩
    · cases h
  · obtain rfl := Expr.eq_of_equal hrr
    split at h
    · obtain ⟨_, hpred, h⟩ := Option.bind_eq_some_iff.mp h
      obtain ⟨_, hclause, rfl⟩ := Option.map_eq_some_iff.mp h
      exact ⟨_, hcommute hpred _ _, hcommute hclause _ _⟩
    · cases h
  · obtain rfl := Expr.eq_of_equal hlr
    obtain rfl := Expr.eq_of_equal hrl
    obtain ⟨_, hpred, rfl⟩ := Option.map_eq_some_iff.mp h
    exact ⟨_, _, hcommute hpred _ _, rfl⟩
  · obtain rfl := Expr.eq_of_equal hlr
    split at h
    · obtain ⟨_, hclause, rfl⟩ := Option.map_eq_some_iff.mp h
      exact ⟨_, rfl, hcommute hclause _ _⟩
    · cases h
  · obtain rfl := Expr.eq_of_equal hrl
    split at h
    · obtain ⟨_, hpred, rfl⟩ := Option.map_eq_some_iff.mp h
      exact ⟨_, hcommute hpred _ _, rfl⟩
    · cases h

/-- `operator_predicate_proof` is sound. -/
theorem operatorPredicateProof_sound (hs : P.cat.Sound P.S) (v : ℕ → Option V)
    {predicate clause : Expr V}
    (h : P.operatorPredicateProof predicate clause refuteIt weak = true) :
    Proves refuteIt weak (holds P.S v clause) (holds P.S v predicate) := by
  unfold operatorPredicateProof at h
  split at h
  · rename_i predOp predCollation predLeft predRight clauseOp clauseCollation clauseLeft clauseRight
    split_ifs at h with hcoll
    obtain rfl := not_not.mp hcoll
    simp only [holds, eval, evalList]
    split at h
    · cases h
    · rename_i hmatch
      obtain ⟨x, y, hpred, hclause⟩ := matchOperands_describes hs v hmatch
      rw [hpred, hclause]
      exact hs.proves_sameSubexprs h x y
    · rename_i hmatch
      obtain ⟨x, hpred, hclause⟩ := matchOperands_describes hs v hmatch
      rw [hpred, hclause]
      exact constsProof_sound hs h x
  · cases h

end Planner

/-!
## Soundness of the proof procedures

What `predicate_implied_by` and `predicate_refuted_by` prove holds for every assignment of values,
NULL included.
-/

namespace Planner

variable {V : Type*} [DecidableEq V] {P : Planner V} {v : ℕ → Option V}

/-! ### Strictness -/

section Strict

omit [DecidableEq V]

theorem eval_stripRelabel (S : Semantics V) (e : Expr V) :
    eval S v (stripRelabel e) = eval S v e := by
  cases e with
  | relabelType => rw [stripRelabel, eval]
  | _ => rfl

/-- An array that is never empty has elements. -/
theorem elements_ne_nil_of_arrayNeverEmpty {array : Expr V} {a : V}
    (h : P.arrayNeverEmpty array = true) (ha : eval P.S v array = some a) :
    P.S.elements a ≠ [] := by
  unfold arrayNeverEmpty at h
  split at h
  · rename_i c
    rw [eval] at ha
    rw [ha] at h
    exact length_pos_iff.mp (of_decide_eq_true h)
  · rename_i elements
    have hpos := of_decide_eq_true h
    cases ha
    rw [P.S.elements_array, evalList_eq_map]
    exact length_pos_iff.mp (by rw [length_map]; exact hpos)
  · cases h

/-- An array comparison with a strict operator and NULL on the left is NULL, unless the
array is empty. -/
theorem eval_scalarArrayOpExpr_null (hs : P.cat.Sound P.S) {opno coll : Oid} {useOr : Bool}
    {scalar array : Expr V} (hstrict : P.cat.opStrict opno = true)
    (hscalar : eval P.S v scalar = none) :
    eval P.S v (.scalarArrayOpExpr opno useOr coll scalar array) = none ∨
      ∃ a, eval P.S v array = some a ∧ P.S.elements a = [] ∧
        holds P.S v (.scalarArrayOpExpr opno useOr coll scalar array) = some !useOr := by
  cases ha : eval P.S v array with
  | none => exact .inl (by rw [eval, ha]; rfl)
  | some a =>
    have hnull : ∀ t ∈ (P.S.elements a).map fun e =>
        P.S.truth (P.S.op opno coll [eval P.S v scalar, e]), t = none := by
      intro t ht
      obtain ⟨e, -, rfl⟩ := mem_map.mp ht
      rw [hs.opStrict opno coll _ hstrict (by simp [hscalar])]
      rfl
    by_cases hnil : P.S.elements a = []
    · refine .inr ⟨a, rfl, hnil, ?_⟩
      simp only [holds, eval, ha, Option.bind_some, Semantics.truth_ofTruth, hnil]
      cases useOr <;> rfl
    · have hne : ((P.S.elements a).map fun e =>
          P.S.truth (P.S.op opno coll [eval P.S v scalar, e])) ≠ [] := by simpa using hnil
      left
      rw [eval, ha, Option.bind_some]
      simp only [or3_eq_none hne hnull, and3_eq_none hne hnull, ite_self]
      rfl

end Strict

mutual

/-- A clause that is strict for a subexpression is null, or false if allowed, when that is null. -/
theorem strictFor_sound (hs : P.cat.Sound P.S) {stripped allowFalse : Bool}
    {clause subexpr : Expr V} (h : P.strictFor stripped clause subexpr allowFalse = true)
    (hnull : eval P.S v subexpr = none) :
    eval P.S v clause = none ∨ allowFalse = true ∧ holds P.S v clause = some false := by
  have hsub : eval P.S v (if stripped then subexpr else stripRelabel subexpr) = none := by
    split_ifs
    · exact hnull
    · rw [eval_stripRelabel, hnull]
  have hequal : ∀ {e : Expr V}, Expr.equal e (if stripped then subexpr else stripRelabel subexpr) =
      true → eval P.S v e = none := fun he => by rw [Expr.eq_of_equal he, hsub]
  cases clause with
  | relabelType =>
    rw [strictFor] at h
    split_ifs at h with hstripped
    · exact .inl (by rw [Expr.eq_of_equal h, hnull])
    · rw [holds, eval]
      exact strictFor_sound hs h (by rw [eval_stripRelabel, hnull])
  | opExpr =>
    simp only [strictFor, Bool.or_eq_true, Bool.and_eq_true] at h
    rcases h with he | ⟨hstrict, hargs⟩
    · exact .inl (hequal he)
    · exact .inl (by rw [eval, hs.opStrict _ _ _ hstrict (anyStrictFor_sound hs hargs hsub)])
  | funcExpr =>
    simp only [strictFor, Bool.or_eq_true, Bool.and_eq_true] at h
    rcases h with he | ⟨hstrict, hargs⟩
    · exact .inl (hequal he)
    · exact .inl (by rw [eval, hs.funcStrict _ _ _ hstrict (anyStrictFor_sound hs hargs hsub)])
  | coerce _ arg =>
    simp only [strictFor, Bool.or_eq_true] at h
    rcases h with he | harg
    · exact .inl (hequal he)
    · have harg : eval P.S v arg = none := by simpa using strictFor_sound hs harg hsub
      exact .inl (by rw [eval, harg]; rfl)
  | scalarArrayOpExpr _ _ _ scalar array =>
    simp only [strictFor, Bool.or_eq_true, Bool.and_eq_true] at h
    rcases h with (he | ⟨⟨hscalar, hstrict⟩, hempty⟩) | harray
    · exact .inl (hequal he)
    · have hscalar : eval P.S v scalar = none := by simpa using strictFor_sound hs hscalar hsub
      rcases eval_scalarArrayOpExpr_null hs hstrict hscalar with hnone | ⟨a, ha, hnil, hholds⟩
      · exact .inl hnone
      · rcases hempty with ⟨hallow, hor⟩ | hnever
        · exact .inr ⟨hallow, by rw [hholds, hor]; rfl⟩
        · exact absurd hnil (elements_ne_nil_of_arrayNeverEmpty hnever ha)
    · have harray : eval P.S v array = none := by simpa using strictFor_sound hs harray hsub
      exact .inl (by rw [eval, harray]; rfl)
  | const =>
    simp only [strictFor, Bool.or_eq_true] at h
    rcases h with he | hconst
    · exact .inl (hequal he)
    · exact .inl (by rw [eval]; exact Option.isNone_iff_eq_none.mp hconst)
  | other | arrayExpr | boolExpr | booleanTest | nullTest | list | restrictInfo =>
    simp only [strictFor] at h
    exact .inl (hequal h)

/-- One of the arguments is null. -/
theorem anyStrictFor_sound (hs : P.cat.Sound P.S) {args : List (Expr V)} {subexpr : Expr V}
    (h : P.anyStrictFor args subexpr = true) (hnull : eval P.S v subexpr = none) :
    none ∈ evalList P.S v args := by
  cases args with
  | nil => rw [anyStrictFor] at h; cases h
  | cons arg =>
    rw [anyStrictFor, Bool.or_eq_true] at h
    rw [evalList]
    rcases h with harg | hargs
    · have harg : eval P.S v arg = none := by simpa using strictFor_sound hs harg hnull
      exact mem_cons.mpr (.inl harg.symm)
    · exact mem_cons_of_mem _ (anyStrictFor_sound hs hargs hnull)

end

theorem eval_ne_none_of_clauseIsStrictFor (hs : P.cat.Sound P.S) {clause subexpr : Expr V}
    {allowFalse : Bool} (h : P.clauseIsStrictFor clause subexpr allowFalse = true)
    (htrue : holds P.S v clause = some true) : eval P.S v subexpr ≠ none := by
  intro hnull
  rcases strictFor_sound hs h hnull with hnone | ⟨-, hfalse⟩
  · rw [holds, hnone] at htrue
    cases htrue
  · rw [hfalse] at htrue
    cases htrue

/-! ### Atoms -/

section Atoms

variable {predicate clause arg : Expr V} {weak : Bool}

section

variable (hs : P.cat.Sound P.S)
include hs

theorem impliedByBooleanEqual_sound
    (h : P.impliedByBooleanEqual predicate clause = true) :
    Implies weak (holds P.S v clause) (holds P.S v predicate) := by
  unfold impliedByBooleanEqual at h
  split at h
  · rename_i opno coll leftop c
    rw [Bool.and_eq_true, decide_eq_true_eq] at h
    obtain ⟨rfl, h⟩ := h
    split at h
    · cases h
    · rename_i value hvalue
      have hclause : holds P.S v (.opExpr booleanEqualOperator coll [leftop, .const c]) =
          (holds P.S v leftop).map fun a => a == P.S.getBool value := by
        simp only [holds, eval, evalList, hs.booleanEqual, hvalue]
        cases P.S.truth (eval P.S v leftop) <;> rfl
      rw [hclause]
      split_ifs at h with htrue
      · rw [← Expr.eq_of_equal h, htrue]
        simp only [beq_true, Option.map_id']
        exact fun hpass => hpass
      · split at h
        · rename_i arg args
          rw [holds_not, Expr.eq_of_equal h, (Bool.not_eq_true _).mp htrue]
          simp only [beq_false]
          exact fun hpass => hpass
        · cases h
  · cases h

/-- `predicate_implied_by_simple_clause` is sound. -/
theorem predicateImpliedBySimpleClause_sound
    (h : P.predicateImpliedBySimpleClause predicate clause weak = true) :
    Implies weak (holds P.S v clause) (holds P.S v predicate) := by
  simp only [predicateImpliedBySimpleClause, Bool.or_eq_true] at h
  rcases h with ((he | hbool) | hnotNull) | hop
  · rw [Expr.eq_of_equal he]
    exact fun hpass => hpass
  · exact impliedByBooleanEqual_sound hs hbool
  · split at hnotNull
    · rename_i argisrow arg
      simp only [Bool.and_eq_true, Bool.not_eq_true'] at hnotNull
      obtain ⟨⟨rfl, rfl⟩, hstrict⟩ := hnotNull
      intro hpass
      have hne := eval_ne_none_of_clauseIsStrictFor hs hstrict (passes_false.mp hpass)
      rw [holds_nullTest]
      exact passes_false.mpr (congrArg some (Option.isSome_iff_ne_none.mpr hne))
    · cases hnotNull
  · exact operatorPredicateProof_sound hs v hop

theorem refutes_of_clauseIsStrictFor {allowFalse : Bool}
    (h : P.clauseIsStrictFor predicate arg allowFalse = true) (hnull : eval P.S v arg = none) :
    ¬ Passes false (holds P.S v predicate) := fun hpass =>
  eval_ne_none_of_clauseIsStrictFor hs h (passes_false.mp hpass) hnull

theorem refutedByIsNull_sound
    (h : P.refutedByIsNull predicate arg weak = true) :
    Refutes weak (holds P.S v (.nullTest .isNull false arg)) (holds P.S v predicate) := by
  intro htrue
  rw [holds_nullTest] at htrue
  have hnull : eval P.S v arg = none := Option.isNone_iff_eq_none.mp (Option.some.inj htrue)
  have hstrict : (weak && P.clauseIsStrictFor predicate arg true) = true →
      ¬ Passes (!weak) (holds P.S v predicate) := by
    intro hs'
    obtain ⟨rfl, hs'⟩ := Bool.and_eq_true_iff.mp hs'
    exact refutes_of_clauseIsStrictFor hs hs' hnull
  unfold refutedByIsNull at h
  split at h
  · rename_i predtest predisrow predarg
    split_ifs at h with hrow
    rw [Bool.or_eq_true, Bool.and_eq_true, decide_eq_true_eq] at h
    rcases h with ⟨rfl, he⟩ | hweak
    · rw [(Bool.not_eq_true _).mp hrow, holds_nullTest, Expr.eq_of_equal he, hnull]
      cases weak <;> simp [NullTestType.test]
    · exact hstrict hweak
  · exact hstrict h

theorem isNullRefutedBy_sound (h : P.isNullRefutedBy arg clause = true) :
    Refutes weak (holds P.S v clause) (holds P.S v (.nullTest .isNull false arg)) := by
  intro htrue
  have hne : eval P.S v arg ≠ none := by
    unfold isNullRefutedBy at h
    split at h
    · rename_i clausetest clauseisrow clausearg
      split_ifs at h with hrow
      rw [Bool.or_eq_true, Bool.and_eq_true, decide_eq_true_eq] at h
      rcases h with ⟨rfl, he⟩ | hstrict
      · rw [(Bool.not_eq_true _).mp hrow, holds_nullTest, Expr.eq_of_equal he] at htrue
        exact Option.isSome_iff_ne_none.mp (Option.some.inj htrue)
      · exact eval_ne_none_of_clauseIsStrictFor hs hstrict htrue
    · exact eval_ne_none_of_clauseIsStrictFor hs h htrue
  rw [holds_nullTest]
  cases weak <;> simp [NullTestType.test, hne]

/-- `predicate_refuted_by_simple_clause` is sound. -/
theorem predicateRefutedBySimpleClause_sound
    (h : P.predicateRefutedBySimpleClause predicate clause weak = true) :
    Refutes weak (holds P.S v clause) (holds P.S v predicate) := by
  unfold predicateRefutedBySimpleClause at h
  split_ifs at h with hsame
  split at h
  · cases h
  · exact refutedByIsNull_sound hs h
  · cases h
  · exact isNullRefutedBy_sound hs h
  · cases h
  · exact operatorPredicateProof_sound hs v h

end

end Atoms

/-! ### Conjunctions and disjunctions -/

section Classes

omit [DecidableEq V]

theorem map_holds_eq (S : Semantics V) (es : List (Expr V)) :
    es.map (holds S v) = (evalList S v es).map S.truth := by
  rw [evalList_eq_map, map_map]
  rfl

/-- A conjunction is the conjunction of its components, and a disjunction the disjunction. -/
theorem holds_eq_components (e : Expr V) :
    (P.predicateClassify e = .and → holds P.S v e = and3 ((P.components e).map (holds P.S v))) ∧
    (P.predicateClassify e = .or → holds P.S v e = or3 ((P.components e).map (holds P.S v))) := by
  unfold predicateClassify components
  split
  · simp [map_holds_eq, holds, eval]
  · simp [map_holds_eq, holds, eval, BoolExprType.apply]
  · simp [map_holds_eq, holds, eval, BoolExprType.apply]
  · rename_i opno useOr coll scalar c
    cases hc : c.constvalue with
    | none => simp
    | some =>
      dsimp only
      split_ifs <;> cases useOr <;>
        simp [holds, eval, evalList, saopClass, hc, elementConst, Function.comp_def]
  · rename_i opno useOr coll scalar elements
    split_ifs <;> cases useOr <;>
      simp [holds, eval, evalList, saopClass, evalList_eq_map, P.S.elements_array,
        Function.comp_def]
  · simp

/-- A conjunction passes when all its components do. -/
theorem passes_and_iff {e : Expr V} (h : P.predicateClassify e = .and) (weak : Bool) :
    Passes weak (holds P.S v e) ↔ ∀ item ∈ P.components e, Passes weak (holds P.S v item) := by
  rw [(holds_eq_components e).1 h, passes_and3, forall_mem_map]

/-- A disjunction passes when one of its components does. -/
theorem passes_or_iff {e : Expr V} (h : P.predicateClassify e = .or) (weak : Bool) :
    Passes weak (holds P.S v e) ↔ ∃ item ∈ P.components e, Passes weak (holds P.S v item) := by
  rw [(holds_eq_components e).2 h, passes_or3]
  simp

section Components

variable {e : Expr V} {weak : Bool} {f : {item // item ∈ P.components e} → Bool}

theorem passes_of_all_components (he : P.predicateClassify e = .and)
    (h : (P.components e).attach.all f = true)
    (hf : ∀ item, f item = true → Passes weak (holds P.S v item.1)) :
    Passes weak (holds P.S v e) :=
  (passes_and_iff he weak).mpr fun item hitem =>
    hf ⟨item, hitem⟩ (all_eq_true.mp h _ (mem_attach _ _))

theorem passes_of_any_component (he : P.predicateClassify e = .or)
    (h : (P.components e).attach.any f = true)
    (hf : ∀ item, f item = true → Passes weak (holds P.S v item.1)) :
    Passes weak (holds P.S v e) := by
  obtain ⟨item, -, hitem⟩ := any_eq_true.mp h
  exact (passes_or_iff he weak).mpr ⟨item, item.2, hf item hitem⟩

theorem not_passes_of_any_component (he : P.predicateClassify e = .and)
    (h : (P.components e).attach.any f = true)
    (hf : ∀ item, f item = true → ¬ Passes weak (holds P.S v item.1)) :
    ¬ Passes weak (holds P.S v e) := by
  obtain ⟨item, -, hitem⟩ := any_eq_true.mp h
  exact fun hpass => hf item hitem ((passes_and_iff he weak).mp hpass item item.2)

theorem not_passes_of_all_components (he : P.predicateClassify e = .or)
    (h : (P.components e).attach.all f = true)
    (hf : ∀ item, f item = true → ¬ Passes weak (holds P.S v item.1)) :
    ¬ Passes weak (holds P.S v e) := by
  intro hpass
  obtain ⟨item, hmem, hitem⟩ := (passes_or_iff he weak).mp hpass
  exact hf ⟨item, hmem⟩ (all_eq_true.mp h _ (mem_attach _ _)) hitem

end Components

theorem holds_skipRestrictInfo (S : Semantics V) (e : Expr V) :
    holds S v (skipRestrictInfo e) = holds S v e := by
  cases e with
  | restrictInfo => rw [skipRestrictInfo, holds, holds, eval]
  | _ => rfl

end Classes

/-! ### Recursion -/

section Recursion

variable {predicate clause : Expr V} {weak : Bool}

/-- `predicate_implied_by_recurse` is sound. -/
theorem predicateImpliedByRecurse_sound (hs : P.cat.Sound P.S)
    (h : P.predicateImpliedByRecurse clause predicate weak = true) :
    Implies weak (holds P.S v clause) (holds P.S v predicate) := by
  fun_induction predicateImpliedByRecurse P clause predicate weak <;>
    intro hpass <;> rw [← holds_skipRestrictInfo] at hpass
  case case1 clause predicate c hp hc ih | case6 clause predicate c hp hc ih =>
    exact passes_of_all_components hp h fun item hitem => ih item hitem hpass
  case case2 clause predicate c hp hc ihp ihc =>
    rcases Bool.or_eq_true_iff.mp h with h | h
    · exact passes_of_any_component hp h fun item hitem => ihp item hitem hpass
    · obtain ⟨item, -, hitem⟩ := any_eq_true.mp h
      exact ihc item hitem ((passes_and_iff hc weak).mp hpass item item.2)
  case case3 clause predicate c hp hc ih =>
    obtain ⟨item, -, hitem⟩ := any_eq_true.mp h
    exact ih item hitem ((passes_and_iff hc weak).mp hpass item item.2)
  case case4 clause predicate c hp hc ih =>
    obtain ⟨item, hmem, hitem⟩ := (passes_or_iff hc weak).mp hpass
    have hany := all_eq_true.mp h ⟨item, hmem⟩ (mem_attach _ _)
    exact passes_of_any_component hp hany fun pitem hpitem => ih ⟨item, hmem⟩ pitem hpitem hitem
  case case5 clause predicate c hc hp ih =>
    obtain ⟨item, hmem, hitem⟩ := (passes_or_iff hc weak).mp hpass
    exact ih ⟨item, hmem⟩ (all_eq_true.mp h _ (mem_attach _ _)) hitem
  case case7 clause predicate c hp hc ih =>
    exact passes_of_any_component hp h fun item hitem => ih item hitem hpass
  case case8 clause predicate c hp hc => exact predicateImpliedBySimpleClause_sound hs h hpass

omit [DecidableEq V] in
/-- A true expression makes false every predicate that asserts its non-truth. -/
theorem not_passes_of_extractNotArg {arg : Expr V} (h : extractNotArg predicate = some arg)
    (htrue : holds P.S v arg = some true) : ¬ Passes (!weak) (holds P.S v predicate) := by
  have hfalse : holds P.S v predicate = some false := by
    unfold extractNotArg at h
    split at h
    · obtain ⟨_, rfl⟩ := List.head?_eq_some_iff.mp h
      rw [holds_not, htrue]
      rfl
    case h_5 => cases h
    all_goals
      cases h
      rw [holds_booleanTest, htrue]
      rfl
  cases weak <;> simp [hfalse]

omit [DecidableEq V] in
/-- The argument of a true strong negation is false. -/
theorem holds_eq_false_of_extractStrongNotArg {arg : Expr V}
    (h : extractStrongNotArg clause = some arg) (htrue : holds P.S v clause = some true) :
    holds P.S v arg = some false := by
  unfold extractStrongNotArg at h
  split at h
  · obtain ⟨_, rfl⟩ := List.head?_eq_some_iff.mp h
    rw [holds_not] at htrue
    rw [← not3_not3 (holds P.S v arg), htrue]
    rfl
  · cases h
    rw [holds_booleanTest] at htrue
    exact of_decide_eq_true (Option.some.inj htrue)
  · cases h

/-- What implies the argument of a NOT refutes the NOT. -/
theorem not_passes_of_impliesNotArg (hs : P.cat.Sound P.S)
    (h : (extractNotArg predicate).any (P.predicateImpliedByRecurse clause · false) = true)
    (htrue : holds P.S v clause = some true) : ¬ Passes (!weak) (holds P.S v predicate) := by
  cases harg : extractNotArg predicate with
  | none => simp [harg] at h
  | some =>
    rw [harg] at h
    have himplied := predicateImpliedByRecurse_sound hs h (passes_false.mpr htrue)
    exact not_passes_of_extractNotArg harg (passes_false.mp himplied)

/-- What implies the argument of a NOT is refuted by the NOT, with the senses of implication
exchanged. -/
theorem not_passes_of_impliesStrongNotArg (hs : P.cat.Sound P.S)
    (h : (extractStrongNotArg clause).any (P.predicateImpliedByRecurse predicate · !weak) = true)
    (htrue : holds P.S v clause = some true) : ¬ Passes (!weak) (holds P.S v predicate) := by
  cases harg : extractStrongNotArg clause with
  | none => simp [harg] at h
  | some =>
    rw [harg] at h
    intro hpass
    have hfalse := holds_eq_false_of_extractStrongNotArg harg htrue
    have himplied := predicateImpliedByRecurse_sound hs h hpass
    rw [hfalse] at himplied
    cases weak <;> simp at himplied

/-- `predicate_refuted_by_recurse` is sound. -/
theorem predicateRefutedByRecurse_sound (hs : P.cat.Sound P.S)
    (h : P.predicateRefutedByRecurse clause predicate weak = true) :
    Refutes weak (holds P.S v clause) (holds P.S v predicate) := by
  fun_induction predicateRefutedByRecurse P clause predicate weak <;>
    intro htrue <;> rw [← holds_skipRestrictInfo] at htrue
  case case1 clause predicate c _ hp hc ihp ihc =>
    rcases Bool.or_eq_true_iff.mp h with h | h
    · exact not_passes_of_any_component hp h fun item hitem => ihp item hitem htrue
    · obtain ⟨item, -, hitem⟩ := any_eq_true.mp h
      have hpass := (passes_and_iff hc false).mp (passes_false.mpr htrue) item item.2
      exact ihc item hitem (passes_false.mp hpass)
  case case2 clause predicate c _ hp hc ih | case4 clause predicate c _ hp hc ih =>
    exact not_passes_of_all_components hp h fun item hitem => ih item hitem htrue
  case case3 clause predicate c _ hp hc ih =>
    rcases Bool.or_eq_true_iff.mp h with h | h
    · exact not_passes_of_impliesNotArg hs h htrue
    · obtain ⟨item, -, hitem⟩ := any_eq_true.mp h
      have hpass := (passes_and_iff hc false).mp (passes_false.mpr htrue) item item.2
      exact ih item hitem (passes_false.mp hpass)
  case case5 clause predicate c _ hp hc ih =>
    obtain ⟨item, hmem, hitem⟩ := (passes_or_iff hc false).mp (passes_false.mpr htrue)
    have hany := all_eq_true.mp h ⟨item, hmem⟩ (mem_attach _ _)
    exact not_passes_of_any_component hp hany fun pitem hpitem =>
      ih ⟨item, hmem⟩ pitem hpitem (passes_false.mp hitem)
  case case6 clause predicate c _ hp hc ih =>
    rcases Bool.or_eq_true_iff.mp h with h | h
    · exact not_passes_of_impliesNotArg hs h htrue
    · obtain ⟨item, hmem, hitem⟩ := (passes_or_iff hc false).mp (passes_false.mpr htrue)
      have hitem' := all_eq_true.mp h ⟨item, hmem⟩ (mem_attach _ _)
      exact ih ⟨item, hmem⟩ hitem' (passes_false.mp hitem)
  case case7 clause predicate c _ hc ih =>
    rcases Bool.or_eq_true_iff.mp h with h | h
    · exact not_passes_of_impliesStrongNotArg hs h htrue
    · split at h
      · exact not_passes_of_any_component ‹_› h fun item hitem => ih item hitem htrue
      · exact not_passes_of_all_components ‹_› h fun item hitem => ih item hitem htrue
      · rcases Bool.or_eq_true_iff.mp h with h | h
        · exact not_passes_of_impliesNotArg hs h htrue
        · exact predicateRefutedBySimpleClause_sound hs h htrue

end Recursion

/-! ### Lists -/

section Lists

variable {es predicateList clauseList : List (Expr V)} {weak : Bool}

omit [DecidableEq V] in
theorem passes_list_iff (S : Semantics V) :
    Passes weak (holds S v (.list es)) ↔ ∀ e ∈ es, Passes weak (holds S v e) := by
  have hlist : holds S v (.list es) = and3 (es.map (holds S v)) := by
    simp [map_holds_eq, holds, eval]
  rw [hlist, passes_and3, forall_mem_map]

omit [DecidableEq V] in
theorem passes_fromList_iff (S : Semantics V) :
    Passes weak (holds S v (fromList es)) ↔ Passes weak (holds S v (.list es)) := by
  match es with
  | [e] => simp [fromList, passes_list_iff]
  | [] | e :: f :: es => exact Iff.rfl

theorem predicateImpliedBy_passes (hs : P.cat.Sound P.S)
    (h : P.predicateImpliedBy predicateList clauseList weak = true)
    (hclauses : ∀ c ∈ clauseList, Passes weak (holds P.S v c)) :
    Passes weak (holds P.S v (.list predicateList)) := by
  unfold predicateImpliedBy at h
  split_ifs at h with hpred hclause
  · rw [isEmpty_iff.mp hpred, passes_list_iff]
    exact forall_mem_nil _
  · rw [← passes_fromList_iff]
    exact predicateImpliedByRecurse_sound hs h
      ((passes_fromList_iff _).mpr ((passes_list_iff _).mpr hclauses))

theorem predicateRefutedBy_not_passes (hs : P.cat.Sound P.S)
    (h : P.predicateRefutedBy predicateList clauseList weak = true)
    (hclauses : ∀ c ∈ clauseList, holds P.S v c = some true) :
    ¬ Passes (!weak) (holds P.S v (.list predicateList)) := by
  unfold predicateRefutedBy at h
  split_ifs at h
  rw [← passes_fromList_iff]
  refine predicateRefutedByRecurse_sound hs h (passes_false.mp ?_)
  exact (passes_fromList_iff _).mpr
    ((passes_list_iff _).mpr fun c hc => passes_false.mpr (hclauses c hc))

end Lists

/-- **Soundness.** The predicate is the conjunction of its list. What is proved to be implied is
true when all clauses are and, in the weak sense, not false when no clause is; what is proved
to be refuted is false when all clauses are true and, in the weak sense, not true. -/
theorem predicate_proofs_sound (P : Planner V) (hs : P.cat.Sound P.S)
    (predicateList clauseList : List (Expr V)) (v : ℕ → Option V) :
    (P.predicateImpliedBy predicateList clauseList false = true →
      (∀ c ∈ clauseList, holds P.S v c = some true) →
        holds P.S v (.list predicateList) = some true) ∧
    (P.predicateImpliedBy predicateList clauseList true = true →
      (∀ c ∈ clauseList, holds P.S v c ≠ some false) →
        holds P.S v (.list predicateList) ≠ some false) ∧
    (P.predicateRefutedBy predicateList clauseList false = true →
      (∀ c ∈ clauseList, holds P.S v c = some true) →
        holds P.S v (.list predicateList) = some false) ∧
    (P.predicateRefutedBy predicateList clauseList true = true →
      (∀ c ∈ clauseList, holds P.S v c = some true) →
        holds P.S v (.list predicateList) ≠ some true) := by
  refine ⟨fun h hclauses => ?_, fun h hclauses => ?_, fun h hclauses => ?_, fun h hclauses => ?_⟩
  · simpa using predicateImpliedBy_passes hs h fun c hc => passes_false.mpr (hclauses c hc)
  · simpa using predicateImpliedBy_passes hs h fun c hc => passes_true.mpr (hclauses c hc)
  all_goals simpa using predicateRefutedBy_not_passes hs h hclauses

/-! ### Integers -/

/-- Numbers with the comparisons of integers. An array is a number that encodes its
elements. -/
def integers : Semantics ℕ where
  getBool n := n != 0
  ofBool b := b.toNat
  elemType _ := 23
  elements n := (Encodable.decode n).getD []
  array l := Encodable.encode l
  multiArray _ := none
  op opno _ args :=
    match args with
    | [some a, some b] =>
      match opno with
      | 97 => some (decide (a < b)).toNat
      | 525 => some (decide (b ≤ a)).toNat
      | 91 => some ((a != 0) == (b != 0)).toNat
      | _ => none
    | _ => none
  func _ _ _ := none
  coerce _ _ := none
  rowTest _ _ := false
  getBool_ofBool b := by cases b <;> rfl
  elements_array l := by rw [Encodable.encodek]; rfl

/-- The btree family of the integers, with the operators `<` and `>=`. -/
def integerCatalog : Catalog where
  opStrict _ := true
  funcStrict _ := true
  opImmutable _ := true
  getCommutator _ := none
  getNegator opno := if opno = 97 then some 525 else none
  pgAmop := [⟨403, 1976, 23, 23, 1, 97⟩, ⟨403, 1976, 23, 23, 4, 525⟩]

/-- The planner over the catalog with integers. -/
def integerPlanner : Planner ℕ := ⟨integerCatalog, integers, fun _ _ => false⟩

theorem integers_op_eq_none (opno coll : Oid) {args : List (Option ℕ)} (h : none ∈ args) :
    integers.op opno coll args = none := by
  simp only [integers]
  split
  · simp at h
  · rfl

/-- The operators on integers are those of their order. -/
theorem integerCatalog_family (coll : Oid) :
    BtreeFamily integerCatalog integers 1976 coll (· ≤ ·) where
  order := ⟨Nat.le_total, fun _ _ _ => Nat.le_trans⟩
  compares row hrow _ s hs := by
    have hcases : row = ⟨403, 1976, 23, 23, 1, 97⟩ ∧ s = .lt ∨
        row = ⟨403, 1976, 23, 23, 4, 525⟩ ∧ s = .ge := by
      simp only [integerCatalog, mem_cons, not_mem_nil, or_false] at hrow
      rcases hrow with rfl | rfl <;> simp_all [BtStrategy.ofNumber]
    rcases hcases with ⟨rfl, rfl⟩ | ⟨rfl, rfl⟩
    all_goals
      constructor
      · intro a b
        simp [integers, Semantics.truth, BtStrategy.Holds]
      · intro a b
        simp [integers, Semantics.truth]
      · intro y
        rfl
      · intro x
        cases x <;> rfl

theorem integerCatalog_sound : integerCatalog.Sound integers where
  opStrict opno coll args _ h := integers_op_eq_none opno coll h
  funcStrict _ _ _ _ _ := rfl
  commutator _ _ _ _ _ h := by cases h
  negator opno negator coll x y h := by
    simp only [integerCatalog] at h
    split_ifs at h with hop
    subst hop
    cases h
    match x, y with
    | none, _ | some _, none => rfl
    | some a, some b =>
      have hnot : decide (b ≤ a) = !decide (a < b) := by rw [← decide_not, decide_eq_decide, not_lt]
      simp [integers, Semantics.truth, not3, hnot]
  btree row hrow _ coll := by
    have hfamily : row.amopfamily = 1976 := by
      simp only [integerCatalog, mem_cons, not_mem_nil, or_false] at hrow
      rcases hrow with rfl | rfl <;> rfl
    exact hfamily ▸ ⟨_, integerCatalog_family coll⟩
  booleanEqual coll x y := by
    match x, y with
    | none, _ | some _, none => rfl
    | some a, some b => simp [integers, Semantics.truth, booleanEqualOperator]

/-- The clause "x < n". -/
def lessThan (n : ℕ) : Expr ℕ := .opExpr 97 0 [.other 0, .const ⟨23, -1, 0, some n⟩]

theorem predicate_proofs_sound_lessThan :
    integerPlanner.predicateImpliedBy [lessThan 10] [lessThan 5] false = true ∧
      ∀ v, holds integers v (lessThan 5) = some true →
        holds integers v (.list [lessThan 10]) = some true := by
  have himplied : integerPlanner.predicateImpliedBy [lessThan 10] [lessThan 5] false = true := by
    rw [predicateImpliedBy, predicateImpliedByRecurse]
    decide
  refine ⟨himplied, fun v htrue => ?_⟩
  exact (predicate_proofs_sound integerPlanner integerCatalog_sound _ _ v).1 himplied
    (forall_mem_singleton.mpr htrue)

end Planner

end PgCutover.Predtest
