import PgCutover.Lib.Runs
import PgCutover.Workload.Driver

/-!
# Errors in the log of a healthy system

A request fails only when the application does not find the row it is about.
-/

namespace PgCutover.Workload

open Function Lib List

/-- The table has the row that the request is about. -/
def Orders.found (orders : Orders) : Request → Bool
  | .putQuantity id => orders.contains id
  | .deleteOldest after => (orders.minAfter after).isSome
  | _ => true

/-- A request that is executed finds its row. -/
def rowFound (s : State) : Event → Bool
  | .execute worker _ =>
    match s.pc worker with
    | .sent request => s.orders.found request
    | _ => true
  | _ => true

/-- The endpoint is set, and the statement succeeds. -/
def Event.healthy : Event → Bool
  | .draw _ _ endpointSet _ => endpointSet
  | .execute _ sqlOk => sqlOk
  | .logEvent _ _ => true

theorem statusOf_handle (orders : Orders) (request : Request) :
    statusOf (orders.handle true request).1 = .ok ↔ orders.found request = true := by
  have hget : statusOf 200 = .ok := by decide
  have hpost : statusOf 201 = .ok := by decide
  have hmissing : statusOf 404 = .error := by decide
  rw [Orders.handle.eq_def]
  cases request with
  | putQuantity id =>
    rw [Orders.found]
    dsimp only
    rw [Orders.putQuantity]
    cases orders.contains id <;> simp [hget, hmissing]
  | deleteOldest after =>
    rw [Orders.found]
    dsimp only
    rw [Orders.deleteOldest]
    cases orders.minAfter after <;> simp [hget, hmissing]
  | postOrder => exact ⟨fun _ => rfl, fun _ => hpost⟩
  | _ => exact ⟨fun _ => rfl, fun _ => hget⟩

/-! ### What a step does -/

/-- The state after each event of a healthy system. -/
inductive Move (s : State) : Event → State → Prop where
  | draw {worker ts : ℕ} {random : ℕ → ℕ} (hpc : s.pc worker = .start) :
      Move s (.draw worker ts true random)
        { s with pc := update s.pc worker (.sent (drawRequest random)) }
  | execute {worker : ℕ} {request : Request} (hpc : s.pc worker = .sent request) :
      Move s (.execute worker true)
        { s with
          orders := (s.orders.handle true request).2
          pc := update s.pc worker (.answered request (s.orders.handle true request).1) }
  | logEvent {worker ts httpCode : ℕ} {request : Request}
      (hpc : s.pc worker = .answered request httpCode) :
      Move s (.logEvent worker ts)
        { s with
          pc := update s.pc worker .start
          log := s.log ++ [⟨ts, statusOf httpCode, request.op⟩] }

section Step

variable {s t : State} {e : Event}

theorem move_of_step (h : step s e = some t) (hhealthy : e.healthy = true) : Move s e t := by
  cases e with
  | draw worker _ endpointSet =>
    obtain rfl : endpointSet = true := hhealthy
    rw [step, State.draw.eq_def] at h
    cases hpc : s.pc worker with
    | start =>
      simp only [hpc, if_true, Option.some.injEq] at h
      exact h ▸ .draw hpc
    | _ => simp [hpc] at h
  | execute worker sqlOk =>
    obtain rfl : sqlOk = true := hhealthy
    rw [step, State.execute.eq_def] at h
    cases hpc : s.pc worker with
    | sent =>
      simp only [hpc, Option.some.injEq] at h
      exact h ▸ .execute hpc
    | _ => simp [hpc] at h
  | logEvent worker =>
    rw [step, State.logEvent.eq_def] at h
    cases hpc : s.pc worker with
    | answered =>
      simp only [hpc, Option.some.injEq] at h
      exact h ▸ .logEvent hpc
    | _ => simp [hpc] at h

/-- No request has failed, neither one in the log nor one that is still to be logged. -/
structure NoFailure (s : State) : Prop where
  log : ∀ ev ∈ s.log, ev.status = .ok
  answered : ∀ worker request httpCode, s.pc worker = .answered request httpCode →
    statusOf httpCode = .ok

theorem noFailure_init : NoFailure State.init :=
  ⟨nofun, fun _ _ _ h => (by cases h)⟩

/-- Another worker is where it was before. -/
theorem pc_of_update {pc : ℕ → Pc} {worker q : ℕ} {new old : Pc}
    (h : update pc worker new q = old) : q = worker ∧ new = old ∨ pc q = old := by
  by_cases hw : q = worker
  · subst hw
    rw [update_self] at h
    exact .inl ⟨rfl, h⟩
  · rw [update_of_ne hw] at h
    exact .inr h

theorem NoFailure.step (h : NoFailure s) (hmove : Move s e t) (hfound : rowFound s e = true) :
    NoFailure t := by
  cases hmove with
  | draw =>
    refine ⟨h.log, fun q request httpCode hq => ?_⟩
    rcases pc_of_update hq with ⟨-, hq⟩ | hq
    · cases hq
    · exact h.answered q request httpCode hq
  | execute hpc =>
    rw [rowFound, hpc] at hfound
    refine ⟨h.log, fun q request' httpCode hq => ?_⟩
    rcases pc_of_update hq with ⟨-, hq⟩ | hq
    · cases hq
      exact (statusOf_handle ..).2 hfound
    · exact h.answered q request' httpCode hq
  | logEvent hpc =>
    refine ⟨fun ev hev => ?_, fun q request' httpCode' hq => ?_⟩
    · rcases mem_append.1 hev with hev | hev
      · exact h.log ev hev
      · obtain rfl := mem_singleton.1 hev
        exact h.answered _ _ _ hpc
    · rcases pc_of_update hq with ⟨-, hq⟩ | hq
      · cases hq
      · exact h.answered q request' httpCode' hq

/-- A failure is not forgotten. -/
theorem NoFailure.of_step (h : NoFailure t) (hmove : Move s e t) :
    NoFailure s ∧ rowFound s e = true := by
  -- an answer that is not logged yet is still there, unless its worker has gone on
  have hkeep : ∀ worker new q request httpCode, s.pc q = .answered request httpCode →
      q ≠ worker → t.pc = update s.pc worker new → statusOf httpCode = .ok := by
    intro _ _ q request httpCode hq hw ht
    refine h.answered q request httpCode ?_
    rw [ht, update_of_ne hw, hq]
  cases hmove with
  | @draw worker ts random hpc =>
    refine ⟨⟨h.log, fun q request httpCode hq => ?_⟩, rfl⟩
    refine hkeep worker _ q request httpCode hq ?_ rfl
    rintro rfl
    cases hpc.symm.trans hq
  | @execute worker request hpc =>
    refine ⟨⟨h.log, fun q request' httpCode hq => ?_⟩, ?_⟩
    · refine hkeep worker _ q request' httpCode hq ?_ rfl
      rintro rfl
      cases hpc.symm.trans hq
    · rw [rowFound, hpc]
      exact (statusOf_handle ..).1 (h.answered worker request _ (update_self ..))
  | @logEvent worker ts httpCode request hpc =>
    refine ⟨⟨fun ev hev => h.log ev (mem_append_left _ hev), fun q request' httpCode' hq => ?_⟩,
      rfl⟩
    by_cases hw : q = worker
    · subst hw
      cases hpc.symm.trans hq
      exact h.log _ (mem_append_right _ mem_cons_self)
    · exact hkeep worker _ q request' httpCode' hq hw rfl

/-! ### The first hundred orders -/

/-- The driver deletes no order with an id up to 100. -/
structure FirstKept (s : State) : Prop where
  contains : ∀ id, 1 ≤ id → id ≤ 100 → s.orders.contains id = true
  deletes : ∀ worker after, s.pc worker = .sent (.deleteOldest after) → 100 ≤ after

theorem firstKept_init : FirstKept State.init where
  contains id h₁ h₂ := by
    simp only [State.init, Orders.seeded, Bool.and_eq_true, decide_eq_true_eq]
    omega
  deletes _ _ h := by cases h

theorem drawRequest_deleteOldest {random : ℕ → ℕ} {after : ℕ}
    (h : drawRequest random = .deleteOldest after) : 100 ≤ after := by
  rw [drawRequest] at h
  split_ifs at h
  · split at h <;> cases h
  · split at h
    · cases h
    · cases h
    · cases h
      exact Nat.le_add_left ..

theorem minAfter_gt {orders : Orders} {after id : ℕ} (h : orders.minAfter after = some id) :
    after < id := by
  have := mem_of_find?_eq_some h
  rw [mem_range'_1] at this
  exact this.1

/-- A request that is not a deletion removes nothing, and a deletion removes a later order. -/
theorem handle_contains {orders : Orders} {request : Request} {id : ℕ}
    (hid : orders.contains id = true)
    (hdelete : ∀ after, request = .deleteOldest after → id ≤ after) :
    (orders.handle true request).2.contains id = true := by
  rw [Orders.handle.eq_def, if_pos rfl]
  cases request with
  | postOrder =>
    dsimp only [Orders.post]
    by_cases h : id = orders.nextId
    · rw [h, update_self]
    · rw [update_of_ne h]
      exact hid
  | putQuantity =>
    dsimp only
    rw [Orders.putQuantity]
    split_ifs <;> exact hid
  | deleteOldest after =>
    dsimp only
    rw [Orders.deleteOldest]
    cases hmin : orders.minAfter after with
    | none => exact hid
    | some =>
      have hgt := minAfter_gt hmin
      have hle := hdelete after rfl
      dsimp only
      rw [update_of_ne (by omega)]
      exact hid
  | _ => exact hid

theorem FirstKept.step (h : FirstKept s) (hmove : Move s e t) : FirstKept t := by
  cases hmove with
  | draw =>
    refine ⟨h.contains, fun q after hq => ?_⟩
    rcases pc_of_update hq with ⟨-, hq⟩ | hq
    · exact drawRequest_deleteOldest (Pc.sent.inj hq)
    · exact h.deletes q after hq
  | @execute worker request hpc =>
    refine ⟨fun id h₁ h₂ => handle_contains (h.contains id h₁ h₂) ?_, fun q after hq => ?_⟩
    · rintro after rfl
      exact Nat.le_trans h₂ (h.deletes worker after hpc)
    · rcases pc_of_update hq with ⟨-, hq⟩ | hq
      · cases hq
      · exact h.deletes q after hq
  | logEvent =>
    refine ⟨h.contains, fun q after hq => ?_⟩
    rcases pc_of_update hq with ⟨-, hq⟩ | hq
    · cases hq
    · exact h.deletes q after hq

end Step

/-! ### All runs -/

/-- The steps that find their rows. -/
def foundStep : State → Event → Option State :=
  guarded (fun s e => rowFound s e = true) step

/-- What holds in every state of a run of a healthy system, all of whose requests find their
rows. -/
theorem noFailure_of_trace {l : List Event} {s : State}
    (h : trace foundStep State.init l = some s) (hhealthy : ∀ e ∈ l, e.healthy = true) :
    NoFailure s := by
  have hhist := @trace_history _ _ foundStep State.init s l
    (fun l s => (∀ e ∈ l, e.healthy = true) → NoFailure s)
    (fun l s e t ih hstep hl => by
      obtain ⟨hfound, hstep⟩ := guarded_eq_some.1 hstep
      have hmove := move_of_step hstep (hl e (mem_append_right _ mem_cons_self))
      exact (ih fun e he => hl e (mem_append_left _ he)).step hmove hfound)
    (fun _ => noFailure_init) h
  exact hhist hhealthy

theorem noFailure_of_later {l : List Event} {s t : State} (h : trace step s l = some t)
    (hhealthy : ∀ e ∈ l, e.healthy = true) (ht : NoFailure t) : NoFailure s := by
  induction l generalizing s with
  | nil =>
    cases h
    exact ht
  | cons e l ih =>
    obtain ⟨u, hu, h⟩ := trace_cons_eq_some.1 h
    rw [forall_mem_cons] at hhealthy
    exact ((ih h hhealthy.2).of_step (move_of_step hu hhealthy.1)).1

theorem firstKept_of_trace {l : List Event} {s : State} (h : trace step State.init l = some s)
    (hhealthy : ∀ e ∈ l, e.healthy = true) : FirstKept s := by
  have hhist := @trace_history _ _ step State.init s l
    (fun l s => (∀ e ∈ l, e.healthy = true) → FirstKept s)
    (fun l s e t ih hstep hl =>
      (ih fun e he => hl e (mem_append_left _ he)).step
        (move_of_step hstep (hl e (mem_append_right _ mem_cons_self))))
    (fun _ => firstKept_init) h
  exact hhist hhealthy

/-- In a healthy system all events are successes if every request finds its row when it is
executed, and only if, once every answer is logged. The rows with ids up to 100 are always
found. -/
theorem workload_status_ok_iff (l : List Event) (s : State)
    (h : trace step State.init l = some s) (hhealthy : ∀ e ∈ l, e.healthy = true) :
    (trace foundStep State.init l = some s → ∀ ev ∈ s.log, ev.status = .ok) ∧
    ((∀ worker, s.pc worker = .start) → (∀ ev ∈ s.log, ev.status = .ok) →
      trace foundStep State.init l = some s) ∧
    ∀ id, 1 ≤ id → id ≤ 100 → s.orders.contains id = true := by
  refine ⟨fun hfound => (noFailure_of_trace hfound hhealthy).log, fun hidle hok => ?_,
    (firstKept_of_trace h hhealthy).contains⟩
  have hs : NoFailure s :=
    ⟨hok, fun worker request httpCode hpc => by cases (hidle worker).symm.trans hpc⟩
  rcases @trace_guarded_or _ _ step State.init s l (fun s e => rowFound s e = true) _ h with
    hfound | ⟨l₁, e, l₂, u, v, rfl, -, hnot, hstep, hl₂⟩
  · exact hfound
  · -- the step that does not find its row leaves a failure behind
    have hv : NoFailure v :=
      noFailure_of_later hl₂ (fun e he => hhealthy e (by simp [he])) hs
    exact absurd (hv.of_step (move_of_step hstep (hhealthy e (by simp)))).2 hnot

/-- One worker deletes the oldest order after 100, and then another one updates order 101. -/
def deleteThenUpdate : List Event :=
  [.draw 0 0 true (fun n => if n = 1 then 2 else if n = 0 then 7 else 0), .execute 0 true,
    .logEvent 0 0, .draw 1 0 true (fun n => if n = 1 then 1 else if n = 0 then 7 else 100),
    .execute 1 true, .logEvent 1 0]

theorem deleteThenUpdate_error :
    (∀ e ∈ deleteThenUpdate, e.healthy = true) ∧
      ∃ s, trace step State.init deleteThenUpdate = some s ∧
        s.log.map LogEvent.status = [.ok, .error] := by
  decide +kernel

/-- Two workers whose requests do not meet. -/
def updateThenDelete : List Event :=
  [.draw 1 0 true (fun n => if n = 1 then 1 else if n = 0 then 7 else 100), .execute 1 true,
    .logEvent 1 0, .draw 0 0 true (fun n => if n = 1 then 2 else if n = 0 then 7 else 0),
    .execute 0 true, .logEvent 0 0]

theorem workload_status_ok_iff_updateThenDelete :
    ∃ s, trace foundStep State.init updateThenDelete = some s ∧
      trace step State.init updateThenDelete = some s ∧ ∀ ev ∈ s.log, ev.status = .ok := by
  have hsome : (trace foundStep State.init updateThenDelete).isSome = true := by decide +kernel
  obtain ⟨s, hs⟩ := Option.isSome_iff_exists.1 hsome
  have hstep := trace_of_guarded hs
  exact ⟨s, hs, hstep, (workload_status_ok_iff _ s hstep (by decide)).1 hs⟩

end PgCutover.Workload
