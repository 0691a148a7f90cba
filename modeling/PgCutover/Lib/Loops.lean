import Mathlib.Algebra.Order.BigOperators.Group.Finset

/-!
# Loops

Loops with fuel, loops over distinct keys, and the loop that replays a log.
-/

namespace PgCutover.Lib

/-!
## Loops with fuel

`whileLoop cond body fuel` runs a loop whose body may leave the loop with a value.
-/

section While

variable {σ β : Type*}

/-- `while (cond) body`. The body gives the next state or, as an error, the value with which
the loop is left. -/
def whileLoop (cond : σ → Bool) (body : σ → Option (Except β σ)) :
    ℕ → σ → Option (Except β σ)
  | 0, s => if cond s then none else some (.ok s)
  | fuel + 1, s =>
    if cond s then
      match body s with
      | none => none
      | some (.error b) => some (.error b)
      | some (.ok s) => whileLoop cond body fuel s
    else some (.ok s)

/-- There is a result, and it meets one of two conditions. -/
def Ends (Exit : β → Prop) (Done : σ → Prop) : Option (Except β σ) → Prop
  | none => False
  | some (.error b) => Exit b
  | some (.ok s) => Done s

section Ends

variable {Exit Exit' : β → Prop} {Done Done' : σ → Prop} {r : Option (Except β σ)}

theorem Ends.imp (h : Ends Exit Done r) (hexit : ∀ b, Exit b → Exit' b)
    (hdone : ∀ s, Done s → Done' s) : Ends Exit' Done' r := by
  match r, h with
  | some (.error b), h => exact hexit b h
  | some (.ok s), h => exact hdone s h

/-- A result that cannot be an exit. -/
theorem Ends.exists_ok (h : Ends (fun _ => False) Done r) : ∃ s, r = some (.ok s) ∧ Done s := by
  match r, h with
  | some (.ok s), h => exact ⟨s, rfl, h⟩

end Ends

/-- Each round keeps the invariant and lowers the variant, or leaves the loop. -/
theorem whileLoop_ends (Inv : σ → Prop) (Exit : β → Prop) (variant : σ → ℕ)
    {cond : σ → Bool} {body : σ → Option (Except β σ)}
    (hbody : ∀ s, Inv s → cond s = true →
      Ends Exit (fun s' => Inv s' ∧ variant s' < variant s) (body s))
    {fuel : ℕ} {s : σ} (h : Inv s) (hfuel : variant s < fuel) :
    Ends Exit (fun s' => Inv s' ∧ cond s' = false) (whileLoop cond body fuel s) := by
  induction fuel generalizing s with
  | zero => exact absurd hfuel (Nat.not_lt_zero _)
  | succ _ ih =>
    rw [whileLoop]
    split_ifs with hcond
    · match body s, hbody s h hcond with
      | some (.error b), hb => exact hb
      | some (.ok s'), hs' => exact ih hs'.1 (by have := hs'.2; omega)
    · exact ⟨h, by simpa using hcond⟩

/-- What each round keeps holds of a result, if there is one. -/
theorem whileLoop_keeps {Inv : σ → Prop} {Exit : β → Prop} {cond : σ → Bool}
    {body : σ → Option (Except β σ)}
    (hbody : ∀ s r, Inv s → body s = some r → Ends Exit Inv (some r)) {fuel : ℕ} {s : σ} (h : Inv s)
    {r : Except β σ} (hr : whileLoop cond body fuel s = some r) : Ends Exit Inv (some r) := by
  induction fuel generalizing s with
  | zero =>
    rw [whileLoop] at hr
    split_ifs at hr
    cases hr
    exact h
  | succ _ ih =>
    rw [whileLoop] at hr
    split_ifs at hr
    · split at hr
      · cases hr
      · next hs =>
        cases hr
        exact hbody s _ h hs
      · next hs => exact ih (hbody s _ h hs) hr
    · cases hr
      exact h

end While

/-!
## Loops over distinct keys

A loop that visits distinct keys and rewrites, at each key, only that key's entry of a table acts on
every visited entry once and on no other.
-/

variable {σ κ β : Type*} [DecidableEq κ]

/-- Each visited entry is rewritten exactly once, from its value before the loop. -/
theorem foldl_table_of_nodup (step : σ → κ → σ) (table : σ → κ → β) (g : κ → β → β)
    (hstep : ∀ s k, table (step s k) = Function.update (table s) k (g k (table s k)))
    {keys : List κ} (hnodup : keys.Nodup) (s : σ) (k : κ) :
    table (keys.foldl step s) k = if k ∈ keys then g k (table s k) else table s k := by
  induction keys generalizing s with
  | nil => simp
  | cons a _ ih =>
    obtain ⟨ha, hkeys⟩ := List.nodup_cons.mp hnodup
    rw [List.foldl_cons, ih hkeys, hstep]
    by_cases hk : k = a
    · subst hk
      simp [ha]
    · simp [hk]

/-!
## Replaying a log

The entries of a log set a value or leave it alone.
-/

variable {α β : Type*} (act : α → Option β)

/-- The value after the entries. -/
def replay (b : β) (l : List α) : β := l.foldl (fun b a => (act a).getD b) b

variable {act} {a : α} {b : β} {l : List α}

theorem replay_cons : replay act b (a :: l) = replay act ((act a).getD b) l := rfl

theorem replay_append (l' : List α) :
    replay act b (l ++ l') = replay act (replay act b l) l' := List.foldl_append

/-- If an entry sets the value, it does not matter what the value was. -/
theorem replay_eq_of_mem (ha : a ∈ l) (hact : (act a).isSome) (b' : β) :
    replay act b l = replay act b' l := by
  induction l generalizing b b' with
  | nil => cases ha
  | cons c l ih =>
    rw [replay_cons, replay_cons]
    rcases List.mem_cons.1 ha with rfl | ha
    · obtain ⟨x, hx⟩ := Option.isSome_iff_exists.1 hact
      rw [hx]
      rfl
    · exact ih ha _

variable [DecidableEq α]

/-- Only the last occurrence of an entry matters. -/
theorem replay_dedup : replay act b l.dedup = replay act b l := by
  induction l generalizing b with
  | nil => rfl
  | cons a l ih =>
    by_cases ha : a ∈ l
    · rw [List.dedup_cons_of_mem ha, ih, replay_cons]
      cases hact : act a with
      | none => rfl
      | some =>
        refine replay_eq_of_mem ha ?_ _
        rw [hact]
        rfl
    · rw [List.dedup_cons_of_notMem ha, replay_cons, replay_cons, ih]

end PgCutover.Lib
