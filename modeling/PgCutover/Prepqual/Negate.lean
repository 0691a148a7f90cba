import PgCutover.Predtest.Soundness

/-!
# Negation

`negate_clause` of `prepqual.c` pushes a negation into an expression. The result is the negation of
the expression whatever the values are, if the negators in the catalogs are negators
(`holds_negateClause`).

Expressions are kept flat: no AND is directly under an AND, and no OR under an OR. De Morgan's laws
swap the two, so that alone does not make trouble, but a NOT that cancels puts what was below it in
its place. The result is flat if no NOT was directly above an AND or an OR (`Flat.negateClause`).
-/

namespace PgCutover.Prepqual

open Lib Predtest List

variable {V : Type*}

/-! ### Shapes -/

/-- The operator of a boolean combination. -/
def boolop : Expr V → Option BoolExprType
  | .boolExpr op _ => some op
  | _ => none

mutual

/-- No operator is directly above one that it is not allowed to be above. -/
def Avoids (above : BoolExprType → BoolExprType → Prop) : Expr V → Prop
  | .other _ => True
  | .const _ => True
  | .opExpr _ _ args => AvoidsAll above args
  | .funcExpr _ _ args => AvoidsAll above args
  | .relabelType _ arg => Avoids above arg
  | .coerce _ arg => Avoids above arg
  | .scalarArrayOpExpr _ _ _ scalar array => Avoids above scalar ∧ Avoids above array
  | .arrayExpr _ elements => AvoidsAll above elements
  | .boolExpr op args =>
    (∀ arg ∈ args, ∀ op', boolop arg = some op' → ¬ above op op') ∧ AvoidsAll above args
  | .booleanTest _ arg => Avoids above arg
  | .nullTest _ _ arg => Avoids above arg
  | .list items => AvoidsAll above items
  | .restrictInfo clause => Avoids above clause

/-- So in all of a list. -/
def AvoidsAll (above : BoolExprType → BoolExprType → Prop) : List (Expr V) → Prop
  | [] => True
  | e :: es => Avoids above e ∧ AvoidsAll above es

end

theorem avoidsAll_iff {above : BoolExprType → BoolExprType → Prop} {es : List (Expr V)} :
    AvoidsAll above es ↔ ∀ e ∈ es, Avoids above e := by
  induction es with
  | nil => simp [AvoidsAll]
  | cons _ _ ih => rw [AvoidsAll, ih, forall_mem_cons]

/-- No AND is directly under an AND, and no OR directly under an OR. -/
abbrev Flat (e : Expr V) : Prop := Avoids (fun op op' => op = op' ∧ op ≠ .not) e

/-- No NOT is directly above an AND or an OR. -/
abbrev NotsReduced (e : Expr V) : Prop := Avoids (fun op op' => op = .not ∧ op' ≠ .not) e

/-! ### Negating -/

/-- `makeBoolConst`; the value is NULL when there is none. -/
def makeBoolConst (S : Semantics V) (value : Option Bool) : Expr V :=
  .const ⟨16, -1, 0, value.map S.ofBool⟩

/-- `make_notclause`. -/
def makeNotclause (notclause : Expr V) : Expr V := .boolExpr .not [notclause]

/-- The opposite null test. -/
def negateNullTest : NullTestType → NullTestType
  | .isNull => .isNotNull
  | .isNotNull => .isNull

/-- The opposite boolean test. -/
def negateBoolTest : BoolTestType → BoolTestType
  | .isTrue => .isNotTrue
  | .isNotTrue => .isTrue
  | .isFalse => .isNotFalse
  | .isNotFalse => .isFalse
  | .isUnknown => .isNotUnknown
  | .isNotUnknown => .isUnknown

section Negate

variable (cat : Catalog) (S : Semantics V)

mutual

/-- `negate_clause`. -/
def negateClause : Expr V → Expr V
  | .const c => makeBoolConst S (c.constvalue.map fun value => !S.getBool value)
  | .opExpr opno inputcollid args =>
    match cat.getNegator opno with
    | some negator => .opExpr negator inputcollid args
    | none => makeNotclause (.opExpr opno inputcollid args)
  | .scalarArrayOpExpr opno useOr inputcollid scalar array =>
    match cat.getNegator opno with
    | some negator => .scalarArrayOpExpr negator (!useOr) inputcollid scalar array
    | none => makeNotclause (.scalarArrayOpExpr opno useOr inputcollid scalar array)
  | .boolExpr .and args => .boolExpr .or (negateClauses args)
  | .boolExpr .or args => .boolExpr .and (negateClauses args)
  | .boolExpr .not (arg :: _) => arg
  -- the tests of a row are not the inverse of each other
  | .nullTest nulltesttype false arg => .nullTest (negateNullTest nulltesttype) false arg
  | .booleanTest booltesttype arg => .booleanTest (negateBoolTest booltesttype) arg
  | node => makeNotclause node

/-- Each clause negated. -/
def negateClauses : List (Expr V) → List (Expr V)
  | [] => []
  | arg :: args => negateClause arg :: negateClauses args

end

/-- The catalogued negators are negators, NULL included. -/
def NegatorsCorrect : Prop :=
  ∀ opno negator, cat.getNegator opno = some negator → ∀ coll args,
    S.truth (S.op negator coll args) = not3 (S.truth (S.op opno coll args))

/-! ### Meaning -/

variable {cat S} {v : ℕ → Option V}

theorem holds_boolExpr (op : BoolExprType) (args : List (Expr V)) :
    holds S v (.boolExpr op args) = op.apply (args.map (holds S v)) := by
  rw [Planner.map_holds_eq, holds, eval, S.truth_ofTruth]

theorem holds_makeBoolConst (value : Option Bool) : holds S v (makeBoolConst S value) = value := by
  exact S.truth_ofTruth value

theorem holds_makeNotclause (e : Expr V) : holds S v (makeNotclause e) = not3 (holds S v e) :=
  holds_not S v e []

/-- The elements are compared by the negator, and one of them is wanted instead of all. -/
theorem holds_scalarArrayOpExpr_negator {opno negator coll : Oid} {useOr : Bool}
    {scalar array : Expr V} (hneg : NegatorsCorrect cat S)
    (hop : cat.getNegator opno = some negator) :
    holds S v (.scalarArrayOpExpr negator (!useOr) coll scalar array) =
      not3 (holds S v (.scalarArrayOpExpr opno useOr coll scalar array)) := by
  rw [holds, holds, eval, eval]
  cases eval S v array with
  | none => rfl
  | some a =>
    have hresults : (S.elements a).map (fun e => S.truth (S.op negator coll [eval S v scalar, e])) =
        ((S.elements a).map fun e => S.truth (S.op opno coll [eval S v scalar, e])).map not3 := by
      rw [map_map]
      exact map_congr_left fun e _ => hneg opno negator hop coll _
    rw [Option.bind_some, Option.bind_some, S.truth_ofTruth, S.truth_ofTruth, hresults]
    cases useOr with
    | true => exact (not3_or3 _).symm
    | false => exact (not3_and3 _).symm

mutual

theorem holds_negateClause (hneg : NegatorsCorrect cat S) (e : Expr V) :
    holds S v (negateClause cat S e) = not3 (holds S v e) := by
  unfold negateClause
  split
  case h_1 c =>
    rw [holds_makeBoolConst, holds, eval, Semantics.truth, not3, Option.map_map]
    rfl
  case h_2 opno coll args =>
    split
    case h_1 negator hop =>
      rw [holds, holds, eval, eval]
      exact hneg opno negator hop coll _
    case h_2 => exact holds_makeNotclause _
  case h_3 opno useOr coll scalar array =>
    split
    case h_1 negator hop => exact holds_scalarArrayOpExpr_negator hneg hop
    case h_2 => exact holds_makeNotclause _
  case h_4 args =>
    rw [holds_boolExpr, holds_boolExpr, map_holds_negateClauses hneg args]
    exact (not3_and3 _).symm
  case h_5 args =>
    rw [holds_boolExpr, holds_boolExpr, map_holds_negateClauses hneg args]
    exact (not3_or3 _).symm
  case h_6 arg args => rw [holds_not, not3_not3]
  case h_7 t arg =>
    rw [holds_nullTest, holds_nullTest]
    cases t <;> cases eval S v arg <;> rfl
  case h_8 t arg =>
    rw [holds_booleanTest, holds_booleanTest]
    cases t <;> simp [negateBoolTest, BoolTestType.test, not3]
  case h_9 => exact holds_makeNotclause _

theorem map_holds_negateClauses (hneg : NegatorsCorrect cat S) (es : List (Expr V)) :
    (negateClauses cat S es).map (holds S v) = (es.map (holds S v)).map not3 := by
  cases es with
  | nil => rfl
  | cons e es =>
    rw [negateClauses, map_cons, holds_negateClause hneg e, map_holds_negateClauses hneg es]
    rfl

end

/-! ### Flatness -/

/-- An AND or an OR comes from the other one. -/
theorem boolop_negateClause {e : Expr V} (h : NotsReduced e) {op : BoolExprType}
    (hop : boolop (negateClause cat S e) = some op) :
    op = .not ∨ op = .or ∧ boolop e = some .and ∨ op = .and ∧ boolop e = some .or := by
  unfold negateClause at hop
  split at hop
  case h_1 | h_7 | h_8 => cases hop
  case h_2 | h_3 =>
    split at hop
    · cases hop
    · exact .inl (Option.some.inj hop).symm
  case h_4 => exact .inr (.inl ⟨(Option.some.inj hop).symm, rfl⟩)
  case h_5 => exact .inr (.inr ⟨(Option.some.inj hop).symm, rfl⟩)
  case h_6 arg args =>
    by_contra hnot
    exact h.1 arg mem_cons_self op hop ⟨rfl, fun heq => hnot (.inl heq)⟩
  case h_9 => exact .inl (Option.some.inj hop).symm

theorem mem_negateClauses {e : Expr V} {es : List (Expr V)} :
    e ∈ negateClauses cat S es ↔ ∃ arg ∈ es, negateClause cat S arg = e := by
  induction es with
  | nil => simp [negateClauses]
  | cons _ _ ih => rw [negateClauses, mem_cons, ih, exists_mem_cons_iff, eq_comm]

theorem avoids_makeNotclause {above : BoolExprType → BoolExprType → Prop} {e : Expr V}
    (h : Avoids above e) (hop : ∀ op', boolop e = some op' → ¬ above .not op') :
    Avoids above (makeNotclause e) := by
  exact ⟨forall_mem_singleton.mpr hop, h, trivial⟩

/-- A NOT above something that is no AND or OR. -/
theorem flat_makeNotclause {e : Expr V} (hflat : Flat e) (hnots : NotsReduced e)
    (hop : ∀ op', boolop e = some op' → op' = .not) :
    Flat (makeNotclause e) ∧ NotsReduced (makeNotclause e) :=
  ⟨avoids_makeNotclause hflat fun _ _ h => h.2 rfl,
    avoids_makeNotclause hnots fun op' hop' h => h.2 (hop op' hop')⟩

/-- The two operators that De Morgan's laws swap. -/
theorem flat_negated {op op' : BoolExprType} (hdual : op = .and ∧ op' = .or ∨ op = .or ∧ op' = .and)
    {args : List (Expr V)} (hflat : Flat (.boolExpr op args))
    (hnots : NotsReduced (.boolExpr op args))
    (hargs : ∀ arg ∈ args, Flat (negateClause cat S arg) ∧ NotsReduced (negateClause cat S arg)) :
    Flat (.boolExpr op' (negateClauses cat S args)) ∧
      NotsReduced (.boolExpr op' (negateClauses cat S args)) := by
  simp only [Avoids, avoidsAll_iff] at *
  refine ⟨⟨?_, ?_⟩, ?_, ?_⟩
  · rintro e he _ hop ⟨rfl, -⟩
    obtain ⟨arg, harg, rfl⟩ := mem_negateClauses.mp he
    have hswap := boolop_negateClause (hnots.2 arg harg) hop
    have hsame := hflat.1 arg harg op
    rcases hdual with ⟨rfl, rfl⟩ | ⟨rfl, rfl⟩ <;> simp_all
  · intro e he
    obtain ⟨arg, harg, rfl⟩ := mem_negateClauses.mp he
    exact (hargs arg harg).1
  · rintro e - _ - ⟨rfl, -⟩
    rcases hdual with ⟨-, hnot⟩ | ⟨-, hnot⟩ <;> cases hnot
  · intro e he
    obtain ⟨arg, harg, rfl⟩ := mem_negateClauses.mp he
    exact (hargs arg harg).2

mutual

/-- Flat expressions without a NOT above an AND or an OR stay so. -/
theorem flat_negateClause (e : Expr V) (hflat : Flat e) (hnots : NotsReduced e) :
    Flat (negateClause cat S e) ∧ NotsReduced (negateClause cat S e) := by
  unfold negateClause
  split
  case h_1 => exact ⟨trivial, trivial⟩
  case h_2 | h_3 =>
    split
    · exact ⟨hflat, hnots⟩
    · exact flat_makeNotclause hflat hnots nofun
  case h_4 args =>
    exact flat_negated (.inl ⟨rfl, rfl⟩) hflat hnots
      (flat_negateClauses args (avoidsAll_iff.mp hflat.2) (avoidsAll_iff.mp hnots.2))
  case h_5 args =>
    exact flat_negated (.inr ⟨rfl, rfl⟩) hflat hnots
      (flat_negateClauses args (avoidsAll_iff.mp hflat.2) (avoidsAll_iff.mp hnots.2))
  case h_6 => exact ⟨hflat.2.1, hnots.2.1⟩
  case h_7 | h_8 => exact ⟨hflat, hnots⟩
  case h_9 _ _ _ hand hor _ _ _ =>
    refine flat_makeNotclause hflat hnots fun op' hop => ?_
    cases e with
    | boolExpr _ args =>
      cases Option.some.inj hop
      cases op' with
      | and => exact (hand args rfl).elim
      | or => exact (hor args rfl).elim
      | not => rfl
    | _ => cases hop

theorem flat_negateClauses (es : List (Expr V)) (hflat : ∀ e ∈ es, Flat e)
    (hnots : ∀ e ∈ es, NotsReduced e) :
    ∀ e ∈ es, Flat (negateClause cat S e) ∧ NotsReduced (negateClause cat S e) := by
  cases es with
  | nil => exact nofun
  | cons e es =>
    rw [forall_mem_cons] at hflat hnots ⊢
    exact ⟨flat_negateClause e hflat.1 hnots.1, flat_negateClauses es hflat.2 hnots.2⟩

end

end Negate

open Planner (integerCatalog integers lessThan)

/-- **Negation.** If the catalogued negators are correct, the negated clause evaluates to the
negation of the clause under every assignment; and if the clause is flat and has no NOT directly
above an AND or an OR, so has the negated one. -/
theorem negateClause_correct (cat : Catalog) (S : Semantics V) (hneg : NegatorsCorrect cat S)
    (e : Expr V) :
    (∀ v, holds S v (negateClause cat S e) = not3 (holds S v e)) ∧
      (Flat e → NotsReduced e →
        Flat (negateClause cat S e) ∧ NotsReduced (negateClause cat S e)) :=
  ⟨fun _ => holds_negateClause hneg e, flat_negateClause e⟩

theorem integerCatalog_negatorsCorrect : NegatorsCorrect integerCatalog integers := by
  intro _ _ hop _ args
  simp only [integerCatalog] at hop
  split_ifs at hop with hless
  cases hop
  subst hless
  rcases args with _ | ⟨_ | a, _ | ⟨_ | b, _ | _⟩⟩
  case cons.some.cons.some.nil =>
    have hnot : decide (b ≤ a) = !decide (a < b) := by rw [← decide_not, decide_eq_decide, not_lt]
    simp [integers, Semantics.truth, not3, hnot]
  all_goals rfl

/-- The negation of "x < 5 AND y" is "x >= 5 OR NOT y". -/
theorem negateClause_correct_lessThan :
    negateClause integerCatalog integers (.boolExpr .and [lessThan 5, .other 1]) =
        .boolExpr .or [.opExpr 525 0 [.other 0, .const ⟨23, -1, 0, some 5⟩],
          .boolExpr .not [.other 1]] ∧
      ∀ v, holds integers v (negateClause integerCatalog integers
          (.boolExpr .and [lessThan 5, .other 1])) =
        not3 (holds integers v (.boolExpr .and [lessThan 5, .other 1])) :=
  ⟨rfl, (negateClause_correct integerCatalog integers integerCatalog_negatorsCorrect _).1⟩

/-- The negation of "NOT (x OR y) AND z" is "(x OR y) OR NOT z", which is not flat. -/
theorem not_flat_negateClause :
    Flat (.boolExpr .and [.boolExpr .not [.boolExpr .or [.other 0, .other 1]], .other 2] : Expr ℕ) ∧
      ¬ Flat (negateClause integerCatalog integers
        (.boolExpr .and [.boolExpr .not [.boolExpr .or [.other 0, .other 1]], .other 2])) := by
  simp [Avoids, AvoidsAll, boolop, negateClause, negateClauses]

end PgCutover.Prepqual
