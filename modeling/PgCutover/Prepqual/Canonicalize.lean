import PgCutover.Prepqual.Negate

/-!
# Clauses that all arms of an OR have

`canonicalize_qual` of `prepqual.c` applies the inverse of the distributive law: a clause that is in
all arms of an OR is pulled out of it. It also removes constants, where NULL counts as FALSE in a
WHERE clause and as TRUE in a CHECK constraint. A qualification passes in one of these two senses,
and all that the functions do keeps whether it does (`Reading.find_iff`), so both senses are treated
at once. Flat expressions stay flat (`flat_findDuplicateOrs`).
-/

namespace PgCutover.Prepqual

open Lib Predtest

variable {V : Type*}

/-- The members of a list of clauses, with the members of nested clauses of the operator in the
place of these. -/
def pull (op : BoolExprType) : List (Expr V) → List (Expr V)
  | [] => []
  | .boolExpr op' args :: rest =>
    (if op' = op then pull op args else [.boolExpr op' args]) ++ pull op rest
  | subexpr :: rest => subexpr :: pull op rest

/-- `pull_ands`. -/
def pullAnds : List (Expr V) → List (Expr V) := pull .and

/-- `pull_ors`. -/
def pullOrs : List (Expr V) → List (Expr V) := pull .or

/-- A clause for a list of members, unless there is only one. -/
def clauseOf (op : BoolExprType) (flatten : List (Expr V) → List (Expr V)) : List (Expr V) → Expr V
  | [e] => e
  | list => .boolExpr op (flatten list)

/-! ### `process_duplicate_ors` -/

section Process

variable [DecidableEq V]

/-- `list_member`. -/
def listMember (list : List (Expr V)) (datum : Expr V) : Bool := list.any (Expr.equal · datum)

/-- `list_union(NIL, list)`. -/
def listUnion (list : List (Expr V)) : List (Expr V) :=
  list.foldl (fun result datum => if listMember result datum then result else result ++ [datum]) []

/-- `list_difference`. -/
def listDifference (list1 list2 : List (Expr V)) : List (Expr V) :=
  list1.filter fun datum => !listMember list2 datum

/-- The shortest AND clause. A clause that is no AND is one of a single member. -/
def chooseReference (reference : List (Expr V)) : List (Expr V) → List (Expr V)
  | [] => reference
  | .boolExpr .and subclauses :: rest =>
    -- an empty list counts as no list so far
    if reference.isEmpty || subclauses.length < reference.length then
      chooseReference subclauses rest
    else chooseReference reference rest
  | clause :: _ => [clause]

/-- A clause is in one of the arms. -/
def occursIn (refclause : Expr V) : Expr V → Bool
  | .boolExpr .and args => listMember args refclause
  | clause => Expr.equal refclause clause

/-- What remains of an arm, if anything does. -/
def remainder (winners : List (Expr V)) : Expr V → Option (Expr V)
  | .boolExpr .and subclauses =>
    match listDifference subclauses winners with
    | [] => none
    | subclauses => some (clauseOf .and id subclauses)
  | clause => if listMember winners clause then none else some clause

/-- `process_duplicate_ors`. If nothing remains of some arm, the other ones are irrelevant. -/
def processDuplicateOrs (S : Semantics V) (orlist : List (Expr V)) : Expr V :=
  match orlist with
  | [] => makeBoolConst S (some false)
  | [e] => e
  | orlist =>
    let reference := listUnion (chooseReference [] orlist)
    let winners := reference.filter fun refclause => orlist.all (occursIn refclause)
    -- without a common clause the OR stays
    if winners.isEmpty then .boolExpr .or orlist
    else
      match orlist.mapM (remainder winners) with
      | none => clauseOf .and pullAnds winners
      | some neworlist => clauseOf .and pullAnds (winners ++ [clauseOf .or pullOrs neworlist])

end Process

/-! ### `find_duplicate_ors` -/

section Find

variable (S : Semantics V)

/-- What a constant makes of an OR, if it is not dropped. -/
def orConst (isCheck : Bool) (carg : Const V) : Option (Expr V) :=
  if isCheck then
    if !carg.constisnull && S.truth carg.constvalue = some false then none
    else some (makeBoolConst S (some true))
  else if carg.constisnull || S.truth carg.constvalue = some false then none
  else some (.const carg)

/-- What a constant makes of an AND, if it is not dropped. -/
def andConst (isCheck : Bool) (carg : Const V) : Option (Expr V) :=
  if isCheck then
    if carg.constisnull || S.truth carg.constvalue = some true then none else some (.const carg)
  else if !carg.constisnull && S.truth carg.constvalue = some true then none
  else some (makeBoolConst S (some false))

/-- The inputs that are no constants, or a constant as the result. -/
def inputs (onConst : Const V → Option (Expr V)) : List (Expr V) → Except (Expr V) (List (Expr V))
  | [] => .ok []
  | .const carg :: args =>
    match onConst carg with
    | some result => .error result
    | none => inputs onConst args
  | arg :: args => (inputs onConst args).map (arg :: ·)

variable [DecidableEq V]

mutual

/-- `find_duplicate_ors`. -/
def findDuplicateOrs (isCheck : Bool) : Expr V → Expr V
  | .boolExpr .or args =>
    match inputs (orConst S isCheck) (findInArgs isCheck args) with
    | .error result => result
    | .ok orlist => processDuplicateOrs S (pullOrs orlist)
  | .boolExpr .and args =>
    match inputs (andConst S isCheck) (findInArgs isCheck args) with
    | .error result => result
    | .ok andlist =>
      match pullAnds andlist with
      | [] => makeBoolConst S (some true)
      | andlist => clauseOf .and id andlist
  | qual => qual

/-- In each of the arguments. -/
def findInArgs (isCheck : Bool) : List (Expr V) → List (Expr V)
  | [] => []
  | arg :: args => findDuplicateOrs isCheck arg :: findInArgs isCheck args

end

/-- `canonicalize_qual`. -/
def canonicalizeQual (qual : Option (Expr V)) (isCheck : Bool) : Option (Expr V) :=
  qual.map (findDuplicateOrs S isCheck)

end Find

/-! ### What passes -/

/-- A way to read expressions as passing or not: AND and OR are what they should be, and of the
constants those with the given truth values pass. -/
structure Reading (S : Semantics V) (isCheck : Bool) (P : Expr V → Prop) : Prop where
  and_iff : ∀ l, P (.boolExpr .and l) ↔ ∀ e ∈ l, P e
  or_iff : ∀ l, P (.boolExpr .or l) ↔ ∃ e ∈ l, P e
  const_iff : ∀ c, P (.const c) ↔ Passes isCheck (S.truth c.constvalue)

/-- In a WHERE clause an expression passes if it is true, in a CHECK constraint if it is not
false. -/
theorem reading_passes (S : Semantics V) (v : ℕ → Option V) (isCheck : Bool) :
    Reading S isCheck fun e => Passes isCheck (holds S v e) where
  and_iff l := by rw [holds_boolExpr, BoolExprType.apply, passes_and3, List.forall_mem_map]
  or_iff l := by
    simp only [holds_boolExpr, BoolExprType.apply, passes_or3, List.mem_map,
      exists_exists_and_eq_and]
  const_iff c := by rw [holds, eval]

/-- An expression that decides an OR or an AND: one that passes, or one that does not. -/
def Decides (P : Expr V → Prop) (op : BoolExprType) (e : Expr V) : Prop := P e ↔ op = .or

/-- Constants that decide the clause give a result that does, and the other ones are dropped. -/
def DecidesBy (P : Expr V → Prop) (op : BoolExprType)
    (onConst : Const V → Option (Expr V)) : Prop :=
  ∀ carg,
    (∀ result, onConst carg = some result →
      Decides P op (.const carg) ∧ Decides P op result) ∧
    (onConst carg = none → ¬ Decides P op (.const carg))

section Reading

variable {S : Semantics V} {isCheck : Bool} {P : Expr V → Prop} {l : List (Expr V)}
  {op : BoolExprType}

@[simp] theorem decides_or {e : Expr V} : Decides P .or e ↔ P e := by simp [Decides]

@[simp] theorem decides_and {e : Expr V} : Decides P .and e ↔ ¬ P e := by simp [Decides]

theorem iff_of_decides {e f : Expr V} (h : Decides P op e ↔ Decides P op f) : P e ↔ P f := by
  rw [Decides, Decides] at h
  tauto

theorem exists_mem_cons {e : Expr V} : (∃ f ∈ e :: l, P f) ↔ P e ∨ ∃ f ∈ l, P f := by
  simp only [List.mem_cons, or_and_right, exists_or, exists_eq_left]

theorem constisnull_eq (S : Semantics V) (c : Const V) :
    c.constisnull = (S.truth c.constvalue).isNone := by
  rw [Semantics.truth, Option.isNone_map, Const.constisnull]

namespace Reading

theorem boolConst_iff (h : Reading S isCheck P) (b : Bool) :
    P (makeBoolConst S (some b)) ↔ b = true := by
  rw [makeBoolConst, h.const_iff]
  cases isCheck <;> cases b <;> simp [Semantics.truth, S.getBool_ofBool]

theorem decides_iff (h : Reading S isCheck P) (hop : op ≠ .not) :
    Decides P op (.boolExpr op l) ↔ ∃ e ∈ l, Decides P op e := by
  cases op with
  | and => simp only [decides_and, h.and_iff, not_forall, exists_prop]
  | or => simp only [decides_or, h.or_iff]
  | not => exact absurd rfl hop

theorem decides_pull (h : Reading S isCheck P) (hop : op ≠ .not) :
    (∃ e ∈ pull op l, Decides P op e) ↔ ∃ e ∈ l, Decides P op e := by
  fun_induction pull op l with
  | case1 => rfl
  | case2 op' args rest ihargs ihrest =>
    -- a nested clause of the operator decides when a member of it does
    rw [exists_mem_cons, ← ihrest]
    simp only [List.mem_append, or_and_right, exists_or]
    refine or_congr_left ?_
    split_ifs with heq
    · rw [heq, h.decides_iff hop, ← ihargs]
    · simp only [List.mem_singleton, exists_eq_left]
  | case3 subexpr rest hne ih => rw [exists_mem_cons, exists_mem_cons, ih]

theorem decides_clauseOf (h : Reading S isCheck P) (hop : op ≠ .not)
    {flatten : List (Expr V) → List (Expr V)}
    (hflatten : (∃ e ∈ flatten l, Decides P op e) ↔ ∃ e ∈ l, Decides P op e) :
    Decides P op (clauseOf op flatten l) ↔ ∃ e ∈ l, Decides P op e := by
  unfold clauseOf
  split
  · simp only [List.mem_singleton, exists_eq_left]
  · rw [h.decides_iff hop, hflatten]

theorem clauseOf_or (h : Reading S isCheck P) :
    P (clauseOf .or pullOrs l) ↔ ∃ e ∈ l, P e := by
  rw [← h.or_iff]
  exact iff_of_decides
    ((h.decides_clauseOf (by decide) (h.decides_pull (by decide))).trans
      (h.decides_iff (by decide)).symm)

theorem clauseOf_and (h : Reading S isCheck P) {flatten : List (Expr V) → List (Expr V)}
    (hflatten : (∃ e ∈ flatten l, Decides P .and e) ↔ ∃ e ∈ l, Decides P .and e) :
    P (clauseOf .and flatten l) ↔ ∀ e ∈ l, P e := by
  rw [← h.and_iff]
  exact iff_of_decides ((h.decides_clauseOf (by decide) hflatten).trans
    (h.decides_iff (by decide)).symm)

/-! ### Constants -/

theorem decidesBy_orConst (h : Reading S isCheck P) : DecidesBy P .or (orConst S isCheck) := by
  intro carg
  rw [orConst, constisnull_eq S]
  rcases hvalue : S.truth carg.constvalue with _ | _ | _ <;> cases isCheck <;>
    simp [h.const_iff, h.boolConst_iff, hvalue]

theorem decidesBy_andConst (h : Reading S isCheck P) : DecidesBy P .and (andConst S isCheck) := by
  intro carg
  rw [andConst, constisnull_eq S]
  rcases hvalue : S.truth carg.constvalue with _ | _ | _ <;> cases isCheck <;>
    simp [h.const_iff, h.boolConst_iff, hvalue]

end Reading

theorem decides_inputs {onConst : Const V → Option (Expr V)} (h : DecidesBy P op onConst)
    (args : List (Expr V)) :
    match inputs onConst args with
    | .error result => Decides P op result ∧ ∃ e ∈ args, Decides P op e
    | .ok list => (∃ e ∈ list, Decides P op e) ↔ ∃ e ∈ args, Decides P op e := by
  fun_induction inputs onConst args with
  | case1 => exact Iff.rfl
  | case2 carg args result hresult =>
    obtain ⟨hconst, hdecides⟩ := (h carg).1 result hresult
    exact ⟨hdecides, _, List.mem_cons_self, hconst⟩
  | case3 carg args hdrop ih =>
    -- a constant that is dropped decides nothing
    simpa only [exists_mem_cons, (h carg).2 hdrop, false_or] using ih
  | case4 arg args hne ih =>
    cases hrest : inputs onConst args with
    | error result =>
      rw [hrest] at ih
      exact ⟨ih.1, exists_mem_cons.mpr (.inr ih.2)⟩
    | ok list =>
      rw [hrest] at ih
      dsimp only at ih
      change (∃ e ∈ arg :: list, Decides P op e) ↔ _
      rw [exists_mem_cons, exists_mem_cons, ih]

end Reading

/-! ### Arms -/

/-- The clauses of which one is the conjunction. -/
def conjuncts : Expr V → List (Expr V)
  | .boolExpr .and args => args
  | clause => [clause]

section Arms

variable [DecidableEq V] {S : Semantics V} {isCheck : Bool} {P : Expr V → Prop}
  {orlist winners : List (Expr V)} {clause : Expr V}

theorem mem_of_listMember {list : List (Expr V)} {datum : Expr V}
    (h : listMember list datum = true) : datum ∈ list := by
  obtain ⟨e, he, heq⟩ := List.any_eq_true.mp h
  exact Expr.eq_of_equal heq ▸ he

theorem mem_conjuncts_of_occursIn {refclause : Expr V} (h : occursIn refclause clause = true) :
    refclause ∈ conjuncts clause := by
  unfold occursIn at h
  unfold conjuncts
  split at h
  · exact mem_of_listMember h
  · rw [Expr.eq_of_equal h]
    exact List.mem_singleton_self _

theorem mapM_remainder (winners orlist : List (Expr V)) :
    match orlist.mapM (remainder winners) with
    | none => ∃ clause ∈ orlist, remainder winners clause = none
    | some neworlist => orlist.map (remainder winners) = neworlist.map some := by
  induction orlist with
  | nil => rfl
  | cons clause orlist ih =>
    rw [List.mapM_cons]
    cases hclause : remainder winners clause with
    | none => exact ⟨clause, List.mem_cons_self, hclause⟩
    | some e =>
      cases hrest : orlist.mapM (remainder winners) with
      | none =>
        rw [hrest] at ih
        obtain ⟨clause', hmem, hnone⟩ := ih
        exact ⟨clause', List.mem_cons_of_mem _ hmem, hnone⟩
      | some rest =>
        rw [hrest] at ih
        exact List.map_cons.trans (hclause ▸ ih ▸ rfl)

namespace Reading

omit [DecidableEq V] in
theorem conjuncts_iff (h : Reading S isCheck P) (clause : Expr V) :
    P clause ↔ ∀ e ∈ conjuncts clause, P e := by
  unfold conjuncts
  split
  · exact h.and_iff _
  · rw [List.forall_mem_singleton]

theorem remainder_iff (h : Reading S isCheck P) :
    (∀ e ∈ remainder winners clause, P e) ↔
      ∀ e ∈ listDifference (conjuncts clause) winners, P e := by
  unfold remainder conjuncts
  split
  · split
    · rename_i hnil
      simp [hnil]
    · simp only [Option.mem_some_iff, forall_eq']
      exact h.clauseOf_and Iff.rfl
  · rw [listDifference]
    split_ifs with hmem <;> simp [hmem]

/-- An arm passes when the winners, which are in all arms, and the rest of it do. -/
theorem arm (h : Reading S isCheck P) (hwinners : ∀ w ∈ winners, w ∈ conjuncts clause) :
    P clause ↔ (∀ w ∈ winners, P w) ∧ ∀ e ∈ remainder winners clause, P e := by
  rw [h.conjuncts_iff, h.remainder_iff]
  constructor
  · exact fun hall =>
      ⟨fun w hw => hall w (hwinners w hw), fun e he => hall e (List.mem_of_mem_filter he)⟩
  · rintro ⟨hw, hrest⟩ e he
    by_cases hmem : listMember winners e = true
    · exact hw e (mem_of_listMember hmem)
    · exact hrest e (List.mem_filter.mpr ⟨he, by simpa using hmem⟩)

theorem process_iff (h : Reading S isCheck P) :
    P (processDuplicateOrs S orlist) ↔ ∃ e ∈ orlist, P e := by
  unfold processDuplicateOrs
  split
  · simp [h.boolConst_iff]
  · simp
  · dsimp only
    -- of the winners only this matters, that they are in all arms
    generalize hfilter : List.filter _ _ = winners
    have harm {clause : Expr V} (hclause : clause ∈ orlist) :
        P clause ↔ (∀ w ∈ winners, P w) ∧ ∀ e ∈ remainder winners clause, P e := by
      refine h.arm fun w hw => ?_
      rw [← hfilter, List.mem_filter, List.all_eq_true] at hw
      exact mem_conjuncts_of_occursIn (hw.2 clause hclause)
    have hand (l : List (Expr V)) : P (clauseOf .and pullAnds l) ↔ ∀ e ∈ l, P e :=
      h.clauseOf_and (h.decides_pull (by decide))
    have hmapM := mapM_remainder winners orlist
    split_ifs with hempty
    · exact h.or_iff _
    · split
      · -- nothing remains of some arm
        rename_i hnone
        rw [hnone] at hmapM
        obtain ⟨clause, hclause, hrest⟩ := hmapM
        rw [hand]
        constructor
        · exact fun hw => ⟨clause, hclause, (harm hclause).mpr ⟨hw, by simp [hrest]⟩⟩
        · rintro ⟨e, he, hpasses⟩
          exact ((harm he).mp hpasses).1
      · -- something remains of every arm, and the rests correspond to the arms
        rename_i neworlist hsome
        rw [hsome] at hmapM
        rw [hand, List.forall_mem_append, List.forall_mem_singleton, h.clauseOf_or]
        constructor
        · rintro ⟨hw, e, he, hpasses⟩
          obtain ⟨clause, hclause, hrest⟩ := List.mem_map.mp (hmapM ▸ List.mem_map_of_mem he)
          exact ⟨clause, hclause, (harm hclause).mpr ⟨hw, by simpa [hrest] using hpasses⟩⟩
        · rintro ⟨clause, hclause, hpasses⟩
          obtain ⟨e, he, hrest⟩ := List.mem_map.mp (hmapM ▸ List.mem_map_of_mem hclause)
          obtain ⟨hw, hremainder⟩ := (harm hclause).mp hpasses
          exact ⟨hw, e, he, hremainder e hrest.symm⟩

end Reading

end Arms

/-! ### Flatness -/

section Flat

variable {l : List (Expr V)} {op : BoolExprType}

theorem flat_boolExpr (hop : op ≠ .not) :
    Flat (.boolExpr op l) ↔ ∀ e ∈ l, Flat e ∧ boolop e ≠ some op := by
  rw [Flat, Avoids, avoidsAll_iff, and_comm, ← forall₂_and]
  refine forall₂_congr fun e _ => and_congr_right fun _ =>
    ⟨fun h heq => ?_, fun h op' heq hsame => ?_⟩
  · exact h op heq ⟨rfl, hop⟩
  · exact h (hsame.1 ▸ heq)

theorem flat_pull (hop : op ≠ .not) (h : ∀ e ∈ l, Flat e) :
    ∀ e ∈ pull op l, Flat e ∧ boolop e ≠ some op := by
  fun_induction pull op l with
  | case1 => exact fun e he => absurd he List.not_mem_nil
  | case2 op' args rest ihargs ihrest =>
    rw [List.forall_mem_cons] at h
    rw [List.forall_mem_append]
    refine ⟨?_, ihrest h.2⟩
    split_ifs with heq
    · -- the members of a flat clause are not of its operator
      rw [heq, flat_boolExpr hop] at h
      exact ihargs fun e he => (h.1 e he).1
    · rw [List.forall_mem_singleton]
      exact ⟨h.1, fun hsome => heq (Option.some.inj hsome)⟩
  | case3 subexpr rest hne ih =>
    rw [List.forall_mem_cons] at h ⊢
    refine ⟨⟨h.1, fun heq => ?_⟩, ih h.2⟩
    cases subexpr with
    | boolExpr op' args => exact hne op' args rfl
    | _ => cases heq

theorem flat_clauseOf (hop : op ≠ .not) {flatten : List (Expr V) → List (Expr V)}
    (hl : ∀ e ∈ l, Flat e) (hflatten : ∀ e ∈ flatten l, Flat e ∧ boolop e ≠ some op) :
    Flat (clauseOf op flatten l) := by
  unfold clauseOf
  split
  · exact hl _ List.mem_cons_self
  · exact (flat_boolExpr hop).mpr hflatten

theorem flat_conjuncts {clause : Expr V} (h : Flat clause) : ∀ e ∈ conjuncts clause, Flat e := by
  unfold conjuncts
  split
  · exact avoidsAll_iff.mp h.2
  · exact List.forall_mem_singleton.mpr h

theorem flat_inputs (onConst : Const V → Option (Expr V)) {args : List (Expr V)}
    (honConst : ∀ carg result, onConst carg = some result → Flat result) (h : ∀ e ∈ args, Flat e) :
    match inputs onConst args with
    | .error result => Flat result
    | .ok list => ∀ e ∈ list, Flat e := by
  fun_induction inputs onConst args with
  | case1 => exact h
  | case2 carg args result hresult => exact honConst carg result hresult
  | case3 carg args hdrop ih => exact ih (List.forall_mem_cons.mp h).2
  | case4 arg args hne ih =>
    have ih := ih (List.forall_mem_cons.mp h).2
    cases hrest : inputs onConst args with
    | error result =>
      rw [hrest] at ih
      exact ih
    | ok list =>
      rw [hrest] at ih
      exact List.forall_mem_cons.mpr ⟨h _ List.mem_cons_self, ih⟩

theorem flat_orConst {S : Semantics V} {isCheck : Bool} {carg : Const V} {result : Expr V}
    (h : orConst S isCheck carg = some result) : Flat result := by
  unfold orConst at h
  split_ifs at h <;> cases h <;> trivial

theorem flat_andConst {S : Semantics V} {isCheck : Bool} {carg : Const V} {result : Expr V}
    (h : andConst S isCheck carg = some result) : Flat result := by
  unfold andConst at h
  split_ifs at h <;> cases h <;> trivial

variable [DecidableEq V] {S : Semantics V}

theorem flat_remainder {winners : List (Expr V)} {clause rest : Expr V} (h : Flat clause)
    (hrest : remainder winners clause = some rest) : Flat rest := by
  unfold remainder at hrest
  split at hrest
  · split at hrest
    · cases hrest
    · obtain rfl := Option.some.inj hrest
      have hsub := (flat_boolExpr (by decide)).mp h
      exact flat_clauseOf (by decide) (fun e he => (hsub e (List.mem_of_mem_filter he)).1)
        fun e he => hsub e (List.mem_of_mem_filter he)
  · split_ifs at hrest
    exact Option.some.inj hrest ▸ h

theorem flat_processDuplicateOrs {orlist : List (Expr V)}
    (h : ∀ e ∈ orlist, Flat e ∧ boolop e ≠ some .or) : Flat (processDuplicateOrs S orlist) := by
  unfold processDuplicateOrs
  split
  · trivial
  · exact (h _ List.mem_cons_self).1
  · rename_i hne _
    dsimp only
    generalize hfilter : List.filter _ _ = winners
    have hwinners : ∀ w ∈ winners, Flat w := by
      intro w hw
      obtain ⟨clause, hclause⟩ := List.exists_mem_of_ne_nil orlist hne
      rw [← hfilter, List.mem_filter, List.all_eq_true] at hw
      exact flat_conjuncts (h clause hclause).1 w (mem_conjuncts_of_occursIn (hw.2 clause hclause))
    have hmapM := mapM_remainder winners orlist
    split_ifs
    · exact (flat_boolExpr (by decide)).mpr h
    · split
      · exact flat_clauseOf (by decide) hwinners (flat_pull (by decide) hwinners)
      · rename_i neworlist hsome
        rw [hsome] at hmapM
        have hnew : ∀ e ∈ neworlist, Flat e := by
          intro e he
          obtain ⟨clause, hclause, hrest⟩ := List.mem_map.mp (hmapM ▸ List.mem_map_of_mem he)
          exact flat_remainder (h clause hclause).1 hrest
        have hor : Flat (clauseOf .or pullOrs neworlist) :=
          flat_clauseOf (by decide) hnew (flat_pull (by decide) hnew)
        have hall : ∀ e ∈ winners ++ [clauseOf .or pullOrs neworlist], Flat e :=
          List.forall_mem_append.mpr ⟨hwinners, List.forall_mem_singleton.mpr hor⟩
        exact flat_clauseOf (by decide) hall (flat_pull (by decide) hall)

end Flat

/-! ### The qualification as a whole -/

section Qualification

variable [DecidableEq V] {S : Semantics V} {isCheck : Bool} {P : Expr V → Prop}

theorem findInArgs_eq (args : List (Expr V)) :
    findInArgs S isCheck args = args.map (findDuplicateOrs S isCheck) := by
  induction args with
  | nil => rw [findInArgs, List.map_nil]
  | cons arg args ih => rw [findInArgs, ih, List.map_cons]

mutual

/-- The result passes exactly when the qualification does. -/
theorem Reading.find_iff (h : Reading S isCheck P) (qual : Expr V) :
    P (findDuplicateOrs S isCheck qual) ↔ P qual := by
  have hall {op : BoolExprType} (hop : op ≠ .not) {args : List (Expr V)}
      (hargs : ∀ arg ∈ args, P (findDuplicateOrs S isCheck arg) ↔ P arg) :
      Decides P op (.boolExpr op args) ↔ ∃ e ∈ findInArgs S isCheck args, Decides P op e := by
    simp only [h.decides_iff hop, findInArgs_eq, List.mem_map, exists_exists_and_eq_and]
    exact exists_congr fun e => and_congr_right fun he => iff_congr (hargs e he).symm Iff.rfl
  -- both operators at once would need a `process_duplicate_ors` for AND
  unfold findDuplicateOrs
  split
  · rename_i args
    have hinputs := decides_inputs h.decidesBy_orConst (findInArgs S isCheck args)
    refine iff_of_decides (Iff.trans ?_ (hall (by decide) (h.findInArgs_iff args)).symm)
    split
    · rename_i result heq
      rw [heq] at hinputs
      exact iff_of_true hinputs.1 hinputs.2
    · rename_i orlist heq
      rw [heq] at hinputs
      refine Iff.trans ?_ ((h.decides_pull (by decide)).trans hinputs)
      simp only [decides_or]
      exact h.process_iff
  · rename_i args
    have hinputs := decides_inputs h.decidesBy_andConst (findInArgs S isCheck args)
    refine iff_of_decides (Iff.trans ?_ (hall (by decide) (h.findInArgs_iff args)).symm)
    split
    · rename_i result heq
      rw [heq] at hinputs
      exact iff_of_true hinputs.1 hinputs.2
    · rename_i andlist heq
      rw [heq] at hinputs
      refine Iff.trans ?_ ((h.decides_pull (by decide)).trans hinputs)
      change _ ↔ ∃ e ∈ pullAnds andlist, _
      split
      · rename_i hnil
        simp [h.boolConst_iff, hnil]
      · exact h.decides_clauseOf (by decide) Iff.rfl
  · exact Iff.rfl

theorem Reading.findInArgs_iff (h : Reading S isCheck P) (args : List (Expr V)) :
    ∀ arg ∈ args, P (findDuplicateOrs S isCheck arg) ↔ P arg := by
  cases args with
  | nil => exact fun arg harg => absurd harg List.not_mem_nil
  | cons arg args =>
    exact List.forall_mem_cons.mpr ⟨h.find_iff arg, h.findInArgs_iff args⟩

end

mutual

/-- The result is flat if the qualification is. -/
theorem flat_findDuplicateOrs (qual : Expr V) (h : Flat qual) :
    Flat (findDuplicateOrs S isCheck qual) := by
  unfold findDuplicateOrs
  split
  · rename_i args
    have hinputs := flat_inputs (orConst S isCheck) (fun _ _ => flat_orConst)
      (flat_findInArgs args (avoidsAll_iff.mp h.2))
    split
    · rename_i result heq
      rw [heq] at hinputs
      exact hinputs
    · rename_i orlist heq
      rw [heq] at hinputs
      exact flat_processDuplicateOrs (flat_pull (by decide) hinputs)
  · rename_i args
    have hinputs := flat_inputs (andConst S isCheck) (fun _ _ => flat_andConst)
      (flat_findInArgs args (avoidsAll_iff.mp h.2))
    split
    · rename_i result heq
      rw [heq] at hinputs
      exact hinputs
    · rename_i andlist heq
      rw [heq] at hinputs
      have hpull : ∀ e ∈ pullAnds andlist, Flat e ∧ boolop e ≠ some .and :=
        flat_pull (by decide) hinputs
      split
      · trivial
      · exact flat_clauseOf (by decide) (fun e he => (hpull e he).1) hpull
  · exact h

theorem flat_findInArgs (args : List (Expr V)) (h : ∀ e ∈ args, Flat e) :
    ∀ e ∈ findInArgs S isCheck args, Flat e := by
  cases args with
  | nil => exact fun e he => absurd he List.not_mem_nil
  | cons arg args =>
    rw [findInArgs, List.forall_mem_cons]
    rw [List.forall_mem_cons] at h
    exact ⟨flat_findDuplicateOrs arg h.1, flat_findInArgs args h.2⟩

end

end Qualification

/-- **Canonical qualifications.** A WHERE clause is true exactly when its canonical form is, a CHECK
constraint is false exactly when its canonical form is, and both forms are flat if the expression
is. -/
theorem canonicalizeQual_correct [DecidableEq V] (S : Semantics V) (q : Expr V) :
    (∃ q', canonicalizeQual S (some q) false = some q' ∧
      (∀ v, holds S v q' = some true ↔ holds S v q = some true) ∧ (Flat q → Flat q')) ∧
    ∃ q', canonicalizeQual S (some q) true = some q' ∧
      (∀ v, holds S v q' = some false ↔ holds S v q = some false) ∧ (Flat q → Flat q') := by
  refine ⟨⟨_, rfl, fun v => ?_, flat_findDuplicateOrs q⟩, _, rfl, fun v => ?_,
    flat_findDuplicateOrs q⟩
  · have hpasses := (reading_passes S v false).find_iff q
    rwa [passes_false, passes_false] at hpasses
  · have hpasses := (reading_passes S v true).find_iff q
    rwa [passes_true, passes_true, not_iff_not] at hpasses

end PgCutover.Prepqual
