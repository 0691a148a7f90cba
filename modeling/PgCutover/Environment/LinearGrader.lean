import Mathlib.Order.Interval.Finset.Nat

/-!
# The progression of an issue

The tests of the grader for a call of the issue tracker's tool that moves an issue to a state. The
texts are trimmed and put into lower case before they are compared.
-/

namespace PgCutover.Environment

open List

/-- A value in the arguments of a tool call. Of a value that is not a string only the text is
used. -/
inductive ArgValue where
  | absent
  | string (value : String)
  | other (text : String)

/-- A recorded call of a tool, with the two arguments that the grader looks at. -/
structure ToolCall where
  tool : String
  ok : Bool
  id : ArgValue
  state : ArgValue

/-- `String(value ?? "<none>")`. -/
def ArgValue.text : ArgValue → String
  | .absent => "<none>"
  | .string value => value
  | .other text => text

/-- The arguments name the issue by its id or by its identifier. -/
def argsTargetIssue (targetId targetIdentifier : String) : ArgValue → Bool
  | .string value => value != "" && (value == targetId || value == targetIdentifier)
  | _ => false

/-- What `buildLinearProgressionTests` is given. -/
structure ProgressionOpts where
  calls : List ToolCall
  targetId : String
  targetIdentifier : String
  expectedStateSequence : List String

/-- The successful updates of the issue. -/
def ProgressionOpts.targetCalls (opts : ProgressionOpts) : List ToolCall :=
  opts.calls.filter fun c =>
    c.tool == "update_issue" && c.ok && argsTargetIssue opts.targetId opts.targetIdentifier c.id

/-- `trim` and `toLowerCase` of strings, which may be any functions. -/
structure Locale where
  trim : String → String
  toLowerCase : String → String

namespace Locale

variable (loc : Locale)

/-- `normalizeState`. -/
def normalizeState : ArgValue → String
  | .string value => loc.toLowerCase (loc.trim value)
  | _ => ""

/-- The loop over the calls. -/
def scanCalls (prerequisiteStates : List String) (wanted : String) : ℕ → List ToolCall → Bool
  | _, [] => false
  | prerequisiteCursor, call :: calls =>
    let seen := loc.normalizeState call.state
    if seen = "" then scanCalls prerequisiteStates wanted prerequisiteCursor calls
    else if prerequisiteStates[prerequisiteCursor]? = some seen then
      scanCalls prerequisiteStates wanted (prerequisiteCursor + 1) calls
    else if prerequisiteCursor = prerequisiteStates.length ∧ seen = wanted then true
    else scanCalls prerequisiteStates wanted prerequisiteCursor calls

variable (opts : ProgressionOpts)

/-- The test for the state at `index`, with the message of a failure. -/
def runTest (state : String) (index : ℕ) : Except String Unit :=
  let earlier := opts.expectedStateSequence.take index
  let orElse (text default : String) := if text = "" then default else text
  if loc.scanCalls (earlier.map (loc.normalizeState ∘ .string)) (loc.normalizeState (.string state))
      0 opts.targetCalls then
    .ok ()
  else
    .error ("Expected " ++ opts.targetIdentifier ++ " to reach '" ++ state ++ "' after [" ++
      orElse (" -> ".intercalate earlier) "<start>" ++
      "]. update_issue state sequence observed: " ++
      orElse (" -> ".intercalate (opts.targetCalls.map (·.state.text)))
        "<no update_issue calls on target>")

/-- The verdicts of the tests, one for each expected state. -/
def buildLinearProgressionTests : List (Except String Unit) :=
  opts.expectedStateSequence.zipIdx.map fun (state, index) => loc.runTest opts state index

def Succeeds (i : ℕ) : Prop := (loc.buildLinearProgressionTests opts)[i]? = some (.ok ())

/-- The first states that are expected. -/
def expectedStates (n : ℕ) : List String :=
  (opts.expectedStateSequence.take n).map (loc.normalizeState ∘ .string)

/-- The states that the updates set, in order. -/
def observedStates : List String := opts.targetCalls.map fun call => loc.normalizeState call.state

variable {loc opts} {prerequisiteStates : List String} {wanted : String}

/-- The greedy scan finds the rest of the sequence if it is there. -/
theorem scanCalls_iff (hblank : "" ∉ prerequisiteStates ++ [wanted]) {cursor : ℕ}
    (hcursor : cursor ≤ prerequisiteStates.length) (calls : List ToolCall) :
    loc.scanCalls prerequisiteStates wanted cursor calls = true ↔
      (prerequisiteStates ++ [wanted]).drop cursor <+
        calls.map fun call => loc.normalizeState call.state := by
  have hlt : cursor < (prerequisiteStates ++ [wanted]).length := by
    rw [length_append]
    exact Nat.lt_succ_of_le hcursor
  induction calls generalizing cursor with
  | nil =>
    rw [scanCalls, map_nil, sublist_nil, drop_eq_nil_iff]
    exact iff_of_false Bool.false_ne_true hlt.not_ge
  | cons _ _ ih =>
    rw [drop_eq_getElem_cons hlt, map_cons, cons_sublist_cons', scanCalls]
    have hne : (prerequisiteStates ++ [wanted])[cursor] ≠ "" := fun heq =>
      hblank (heq ▸ getElem_mem hlt)
    split_ifs with hseen hnext hlast
    · refine (ih hcursor hlt).trans ?_
      rw [drop_eq_getElem_cons hlt, hseen]
      exact (or_iff_left fun h => hne h.1).symm
    · obtain ⟨hcursor', hnext⟩ := List.getElem?_eq_some_iff.1 hnext
      refine (ih hcursor' (by rw [length_append]; exact Nat.succ_lt_succ hcursor')).trans ?_
      rw [getElem_append_left hcursor', hnext]
      exact ⟨fun h => .inr ⟨rfl, h⟩, fun h => h.elim sublist_of_cons_sublist And.right⟩
    · obtain ⟨rfl, hlast⟩ := hlast
      refine iff_of_true rfl (.inr ⟨?_, ?_⟩)
      · rw [getElem_concat_length rfl, hlast]
      · rw [drop_of_length_le (by rw [length_append]; rfl)]
        exact nil_sublist _
    · refine (ih hcursor hlt).trans ?_
      rw [drop_eq_getElem_cons hlt]
      refine (or_iff_left fun h => ?_).symm
      rcases hcursor.lt_or_eq with hcursor' | rfl
      · rw [getElem_append_left hcursor'] at h
        exact hnext (List.getElem?_eq_some_iff.2 ⟨hcursor', h.1⟩)
      · rw [getElem_concat_length rfl] at h
        exact hlast ⟨rfl, h.1.symm⟩

theorem runTest_eq_ok_iff {i : ℕ} (hi : i < opts.expectedStateSequence.length)
    (hblank : "" ∉ loc.expectedStates opts (i + 1)) :
    loc.runTest opts opts.expectedStateSequence[i] i = .ok () ↔
      loc.expectedStates opts (i + 1) <+ loc.observedStates opts := by
  rw [expectedStates, take_succ_eq_append_getElem hi, map_append, map_singleton] at hblank ⊢
  have hscan := @scanCalls_iff loc _ _ hblank 0 (Nat.zero_le _) opts.targetCalls
  rw [drop_zero] at hscan
  rw [observedStates, ← hscan]
  dsimp only [runTest]
  split
  case isTrue h => exact iff_of_true rfl h
  case isFalse h => exact iff_of_false nofun h

/-- A test succeeds if the expected states up to its own come in this order, maybe with others
between them, in the successful updates of the issue. -/
theorem succeeds_iff (loc : Locale) (opts : ProgressionOpts)
    (hblank : ∀ s ∈ opts.expectedStateSequence, loc.normalizeState (.string s) ≠ "") :
    (∀ i, loc.Succeeds opts i ↔ i < opts.expectedStateSequence.length ∧
      loc.expectedStates opts (i + 1) <+ loc.observedStates opts) ∧
    ∀ i, loc.Succeeds opts (i + 1) → loc.Succeeds opts i := by
  have hiff (i : ℕ) : loc.Succeeds opts i ↔ i < opts.expectedStateSequence.length ∧
      loc.expectedStates opts (i + 1) <+ loc.observedStates opts := by
    rw [Succeeds, buildLinearProgressionTests, getElem?_map, getElem?_zipIdx, Nat.zero_add]
    by_cases hi : i < opts.expectedStateSequence.length
    · rw [getElem?_eq_getElem hi, and_iff_right hi, Option.map_some, Option.map_some,
        Option.some.injEq]
      refine runTest_eq_ok_iff hi fun h => ?_
      obtain ⟨s, hs, heq⟩ := mem_map.1 h
      exact hblank s (mem_of_mem_take hs) heq
    · simp [hi]
  refine ⟨hiff, fun i h => ?_⟩
  rw [hiff] at h ⊢
  exact ⟨Nat.lt_of_succ_lt h.1, ((take_sublist_take_left (Nat.le_succ _)).map _).trans h.2⟩

/-- The issue is moved on, back and on again, the last time by its identifier. -/
def movedBack : ProgressionOpts where
  calls := [⟨"update_issue", true, .string "42", .string "started"⟩,
    ⟨"update_issue", true, .string "42", .string "todo"⟩,
    ⟨"update_issue", true, .string "PG-1", .string "done"⟩]
  targetId := "42"
  targetIdentifier := "PG-1"
  expectedStateSequence := ["started", "done"]

theorem succeeds_iff_movedBack : Succeeds ⟨id, id⟩ movedBack 1 := by
  refine ((succeeds_iff ⟨id, id⟩ movedBack ?_).1 1).2 ?_
  · decide +kernel
  · decide +kernel

end Locale

end PgCutover.Environment
