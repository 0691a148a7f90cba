import Mathlib.Order.Interval.Finset.Nat

/-!
# The string that stands for the items

The items of two databases are compared by one string of all rows, in which a colon stands between
the fields and a comma between the rows; neither is escaped in the names.
-/

namespace PgCutover.Environment

open List

/-- A row of the table `items`. -/
structure Item where
  id : ℤ
  name : List Char
  value : ℤ

/-- `value::text`. -/
def valueText : ℤ → List Char
  | .ofNat n => Nat.toDigits 10 n
  | .negSucc n => '-' :: Nat.toDigits 10 (n + 1)

/-- `name LIKE '_hf_cdc_marker_%'`. -/
def isMarker (name : List Char) : Bool :=
  let pattern := "_hf_cdc_marker_".toList
  pattern.length ≤ name.length && (pattern.zip name).all fun (p, c) => p == '_' || p == c

/-- The rows of the query in the order of their ids. -/
def queried (items : List Item) : List Item :=
  (items.filter fun item => !isMarker item.name).insertionSort (·.id ≤ ·.id)

/-- What the query reads of the rows. -/
def contents (items : List Item) : List (List Char × ℤ) :=
  (queried items).map fun item => (item.name, item.value)

/-- `name || value::text`. -/
def rowText (row : List Char × ℤ) : List Char := row.1 ++ valueText row.2

/-- `string_agg(name || value::text, ',' ORDER BY id)`, which is null without rows. -/
def stringAgg (items : List Item) : Option (List Char) :=
  match contents items with
  | [] => none
  | rows => some ([','].intercalate (rows.map rowText))

/-- The name of the other row goes on with a part of the value of the row, or with all of the row
and a comma. -/
def Swallows (row other : List Char × ℤ) : Prop :=
  (row.1 <+: other.1 ∧ row.1 ≠ other.1) ∧
    (other.1 <+: rowText row ∧ other.1 ≠ rowText row ∨ rowText row ++ [','] <+: other.1)

/-- Where two tables differ first, one name swallows a part of the other row. -/
def Ambiguous : List (List Char × ℤ) → List (List Char × ℤ) → Prop
  | row :: rows, row' :: rows' =>
    if row = row' then Ambiguous rows rows' else Swallows row row' ∨ Swallows row' row
  | _, _ => False

theorem toDigits_injective {m n : ℕ} (h : Nat.toDigits 10 m = Nat.toDigits 10 n) : m = n := by
  have := congrArg (fun digits => Nat.ofDigitChars 10 digits 0) h
  simpa using this

theorem isDigit_of_mem {n : ℕ} {c : Char} (h : c ∈ Nat.toDigits 10 n) : c.isDigit = true :=
  Nat.isDigit_of_mem_toDigits (by decide) (by decide) h

theorem comma_notMem_valueText (value : ℤ) : ',' ∉ valueText value := by
  cases value with
  | ofNat => exact fun h => absurd (isDigit_of_mem h) (by decide)
  | negSucc =>
    refine fun h => ?_
    rcases mem_cons.1 h with h | h
    · exact absurd h (by decide)
    · exact absurd (isDigit_of_mem h) (by decide)

theorem valueText_ne_nil (value : ℤ) : valueText value ≠ [] := by
  cases value with
  | ofNat => exact Nat.toDigits_ne_nil
  | negSucc => exact cons_ne_nil _ _

theorem valueText_injective {value value' : ℤ} (h : valueText value = valueText value') :
    value = value' := by
  have hminus {n : ℕ} {l : List Char} (h : Nat.toDigits 10 n = '-' :: l) : False := by
    have := isDigit_of_mem (h ▸ mem_cons_self)
    revert this
    decide
  cases value with
  | ofNat =>
    cases value' with
    | ofNat => exact congrArg _ (toDigits_injective h)
    | negSucc => exact (hminus h).elim
  | negSucc =>
    cases value' with
    | ofNat => exact (hminus h.symm).elim
    | negSucc => exact congrArg _ (Nat.succ.inj (toDigits_injective (tail_eq_of_cons_eq h)))

/-- The rows, each after a comma. -/
def afterCommas (rows : List (List Char × ℤ)) : List Char :=
  rows.flatMap fun row => ',' :: rowText row

theorem cons_intercalate (row : List Char × ℤ) (rows : List (List Char × ℤ)) :
    ',' :: [','].intercalate ((row :: rows).map rowText) = afterCommas (row :: rows) := by
  induction rows generalizing row with
  | nil => simp [afterCommas]
  | cons other _ ih =>
    rw [afterCommas, flatMap_cons, ← afterCommas, ← ih other]
    simp [intercalate]

/-- No row begins in the middle of the text of a value. -/
theorem valueText_append_ne (value : ℤ) (l : List Char) (rows : List (List Char × ℤ)) :
    afterCommas rows ≠ valueText value ++ l := by
  intro h
  obtain ⟨c, digits, hdigits⟩ := exists_cons_of_ne_nil (valueText_ne_nil value)
  have hc : c ≠ ',' := fun hc => comma_notMem_valueText value (by simp [hdigits, hc])
  cases rows with
  | nil => simp [afterCommas, hdigits] at h
  | cons => simp [afterCommas, hdigits, Ne.symm hc] at h

/-- The texts of two rows with what follows them agree only if the rows are equal or the longer name
swallows a part of the other row. -/
theorem eq_or_swallows {name a : List Char} {value value' : ℤ} {rows rows' : List (List Char × ℤ)}
    (h : valueText value ++ afterCommas rows = a ++ (valueText value' ++ afterCommas rows')) :
    (name, value) = (name ++ a, value') ∨ Swallows (name, value) (name ++ a, value') := by
  by_cases ha : a = []
  · -- the comma or the end tells where the values end
    have hvalue (value : ℤ) (rows : List (List Char × ℤ)) :
        (valueText value ++ afterCommas rows).takeWhile (· != ',') = valueText value := by
      have hdigits : ∀ c ∈ valueText value, (c != ',') = true := fun c hc =>
        bne_iff_ne.2 fun heq => comma_notMem_valueText value (heq ▸ hc)
      rw [takeWhile_append_of_pos hdigits]
      cases rows <;> simp [afterCommas]
    rw [ha, nil_append] at h
    have hsame := congrArg (takeWhile (· != ',')) h
    rw [hvalue, hvalue] at hsame
    rw [ha, append_nil, valueText_injective hsame]
    exact .inl rfl
  · refine .inr ⟨⟨prefix_append _ _, by simpa using ha⟩, ?_⟩
    rcases append_eq_append_iff.1 h with ⟨d, rfl, hrows⟩ | ⟨d, hd, hrows⟩
    · -- the name goes on behind the value, where a comma is next
      refine .inr ?_
      cases d with
      | nil => exact absurd hrows (valueText_append_ne value' _ rows)
      | cons c d =>
        obtain rfl : c = ',' := by
          cases rows with
          | nil => simp [afterCommas] at hrows
          | cons => exact (cons_eq_cons.1 hrows).1.symm
        exact ⟨d, by simp [rowText]⟩
    · refine .inl ⟨⟨d, by simp [rowText, hd]⟩, fun heq => ?_⟩
      obtain rfl : d = [] := by simpa [rowText, hd] using heq
      exact valueText_append_ne value' _ rows hrows.symm

/-- Equal strings come from equal rows, or from rows that differ first where a name swallows a part
of the other row. -/
theorem eq_or_ambiguous {rows rows' : List (List Char × ℤ)}
    (h : afterCommas rows = afterCommas rows') : rows = rows' ∨ Ambiguous rows rows' := by
  induction rows generalizing rows' with
  | nil =>
    cases rows' with
    | nil => exact .inl rfl
    | cons => simp [afterCommas] at h
  | cons row rows ih =>
    cases rows' with
    | nil => simp [afterCommas] at h
    | cons row' rows' =>
      have htext : row.1 ++ (valueText row.2 ++ afterCommas rows) =
          row'.1 ++ (valueText row'.2 ++ afterCommas rows') := by
        simpa [afterCommas, rowText] using h
      rw [Ambiguous]
      by_cases heq : row = row'
      · subst heq
        rw [if_pos rfl, cons_inj_right]
        exact ih (append_cancel_left (append_cancel_left htext))
      · rw [if_neg heq]
        refine .inr ?_
        obtain ⟨name, value⟩ := row
        obtain ⟨name', value'⟩ := row'
        rcases append_eq_append_iff.1 htext with ⟨a, rfl, hd⟩ | ⟨a, rfl, hd⟩
        · exact .inl ((eq_or_swallows hd).resolve_left heq)
        · exact .inr ((eq_or_swallows hd).resolve_left (Ne.symm heq))

theorem not_ambiguous_self (rows : List (List Char × ℤ)) : ¬Ambiguous rows rows := by
  induction rows with
  | nil => exact id
  | cons _ _ ih =>
    rw [Ambiguous, if_pos rfl]
    exact ih

/-- The names of the seed end in digits, and their values are told apart all the same. -/
example : ¬Ambiguous [("item_1".toList, 14)] [("item_1".toList, 15)] := by
  simp [Ambiguous, Swallows]

end PgCutover.Environment
