import PgCutover.Lib.Loops

/-!
# The queue of sync requests

Backends append requests to a queue of bounded length in shared memory. When it is full, the
requests that are followed by an identical one are removed.
-/

namespace PgCutover.Sync

open Function

/-- `SyncRequestType`. -/
inductive SyncRequestType where
  | request
  | unlinkRequest
  | forgetRequest
  | filterRequest
  deriving DecidableEq

/-- `SyncRequestHandler`. -/
inductive SyncRequestHandler where
  | md
  | clog
  | commitTs
  | multixactOffset
  | multixactMember
  | none
  deriving DecidableEq

/-- `RelFileLocator`. -/
structure RelFileLocator where
  spcOid : UInt32
  dbOid : UInt32
  relNumber : UInt32
  deriving DecidableEq

/-- What names a file. -/
structure FileTag where
  handler : SyncRequestHandler
  forknum : ℕ
  rlocator : RelFileLocator
  segno : UInt64
  deriving DecidableEq

/-- A request in the queue. -/
structure CheckpointerRequest where
  ftag : FileTag
  type : SyncRequestType
  deriving DecidableEq

/-! ### Compaction -/

/-- The first loop of `CompactCheckpointerRequestQueue`, from slot `n` on: the latest slot of each
request so far, the slots to be skipped and their number. -/
def compactLoop : List CheckpointerRequest → ℕ → (CheckpointerRequest → Option ℕ) → (ℕ → Bool) →
    ℕ → (ℕ → Bool) × ℕ
  | [], _, _, skipSlot, numSkipped => (skipSlot, numSkipped)
  | request :: requests, n, slotmap, skipSlot, numSkipped =>
    match slotmap request with
    | some slot =>
      compactLoop requests (n + 1) (update slotmap request (some n)) (update skipSlot slot true)
        (numSkipped + 1)
    | none =>
      compactLoop requests (n + 1) (update slotmap request (some n)) skipSlot numSkipped

/-- The second loop, which keeps the slots that are not to be skipped. -/
def preserve (skipSlot : ℕ → Bool) : ℕ → List CheckpointerRequest → List CheckpointerRequest
  | _, [] => []
  | n, request :: requests =>
    if skipSlot n then preserve skipSlot (n + 1) requests
    else request :: preserve skipSlot (n + 1) requests

/-- `CompactCheckpointerRequestQueue`: the compacted queue, or `none` if it returns false. -/
def compactCheckpointerRequestQueue (inCritSection : Bool) (requests : List CheckpointerRequest) :
    Option (List CheckpointerRequest) :=
  if inCritSection then none
  else
    let result := compactLoop requests 0 (fun _ => none) (fun _ => false) 0
    if result.2 = 0 then none else some (preserve result.1 0 requests)

/-- `ForwardSyncRequest`: the queue with the request, or `none` if it returns false. -/
def forwardSyncRequest (maxRequests : ℕ) (running inCritSection : Bool)
    (requests : List CheckpointerRequest) (request : CheckpointerRequest) :
    Option (List CheckpointerRequest) :=
  if !running then none
  else if requests.length ≥ maxRequests then
    (compactCheckpointerRequestQueue inCritSection requests).map (· ++ [request])
  else some (requests ++ [request])

section Compact

variable {requests : List CheckpointerRequest} {slotmap : CheckpointerRequest → Option ℕ}
  {skipSlot : ℕ → Bool} {n : ℕ}

theorem occursAgain_cons (request : CheckpointerRequest) (m : ℕ) :
    (∃ i, m = n + i ∧ ∃ r, (request :: requests)[i]? = some r ∧
        r ∈ (request :: requests).drop (i + 1)) ↔
      m = n ∧ request ∈ requests ∨
        ∃ i, m = n + 1 + i ∧ ∃ r, requests[i]? = some r ∧ r ∈ requests.drop (i + 1) := by
  constructor
  · rintro ⟨i, hm, r, hr, hmem⟩
    cases i with
    | zero =>
      cases hr
      exact Or.inl ⟨hm, hmem⟩
    | succ i => exact Or.inr ⟨i, by omega, r, hr, hmem⟩
  · rintro (⟨hm, hmem⟩ | ⟨i, hm, r, hr, hmem⟩)
    · exact ⟨0, hm, request, rfl, hmem⟩
    · exact ⟨i + 1, by omega, r, hr, hmem⟩

theorem slotmap_update (request : CheckpointerRequest) (m : ℕ) :
    (∃ r ∈ requests, update slotmap request (some n) r = some m) ↔
      m = n ∧ request ∈ requests ∨ ∃ r ∈ requests, r ≠ request ∧ slotmap r = some m := by
  constructor
  · rintro ⟨r, hr, hslot⟩
    by_cases hreq : r = request
    · subst hreq
      rw [update_self] at hslot
      exact Or.inl ⟨(Option.some.inj hslot).symm, hr⟩
    · rw [update_of_ne hreq] at hslot
      exact Or.inr ⟨r, hr, hreq, hslot⟩
  · rintro (⟨rfl, hr⟩ | ⟨r, hr, hreq, hslot⟩)
    · exact ⟨request, hr, update_self ..⟩
    · exact ⟨r, hr, by rwa [update_of_ne hreq]⟩

theorem compactLoop_skipSlot (numSkipped m : ℕ) :
    (compactLoop requests n slotmap skipSlot numSkipped).1 m = true ↔
      skipSlot m = true ∨ (∃ r ∈ requests, slotmap r = some m) ∨
        ∃ i, m = n + i ∧ ∃ r, requests[i]? = some r ∧ r ∈ requests.drop (i + 1) := by
  induction requests generalizing n slotmap skipSlot numSkipped with
  | nil => simp [compactLoop]
  | cons request requests ih =>
    rw [occursAgain_cons, List.exists_mem_cons_iff]
    cases hslot : slotmap request with rw [compactLoop, hslot, ih, slotmap_update]
    | none =>
      -- the request is new, so that the others with a slot are different from it
      have hne : (∃ r ∈ requests, r ≠ request ∧ slotmap r = some m) ↔
          ∃ r ∈ requests, slotmap r = some m := by
        refine exists_congr fun r => and_congr_right fun _ => and_iff_right_of_imp ?_
        rintro hr rfl
        rw [hslot] at hr
        cases hr
      rw [hne]
      simp only [reduceCtorEq, false_or, or_assoc, or_left_comm]
    | some slot =>
      have hskip : update skipSlot slot true m = true ↔ skipSlot m = true ∨ slot = m := by
        by_cases hm : m = slot
        · subst hm
          simp
        · simp [update_of_ne hm, Ne.symm hm]
      -- a request with the slot `m` is the one at hand or occurs later as well
      have hne : (some slot = some m ∨ ∃ r ∈ requests, slotmap r = some m) ↔
          slot = m ∨ ∃ r ∈ requests, r ≠ request ∧ slotmap r = some m := by
        constructor
        · rintro (hm | ⟨r, hr, hm⟩)
          · exact Or.inl (Option.some.inj hm)
          · by_cases hreq : r = request
            · subst hreq
              exact Or.inl (Option.some.inj (hslot.symm.trans hm))
            · exact Or.inr ⟨r, hr, hreq, hm⟩
        · rintro (rfl | ⟨r, hr, _, hm⟩)
          · exact Or.inl rfl
          · exact Or.inr ⟨r, hr, hm⟩
      rw [hskip, hne]
      simp only [or_assoc, or_left_comm]

theorem preserve_eq_dedup (h : ∀ i, skipSlot (n + i) = true ↔
      ∃ r, requests[i]? = some r ∧ r ∈ requests.drop (i + 1)) :
    preserve skipSlot n requests = requests.dedup := by
  induction requests generalizing n with
  | nil => rfl
  | cons request requests ih =>
    have hrest : ∀ i, skipSlot (n + 1 + i) = true ↔
        ∃ r, requests[i]? = some r ∧ r ∈ requests.drop (i + 1) := by
      intro i
      rw [Nat.add_assoc, Nat.add_comm 1 i, h (i + 1), List.getElem?_cons_succ, List.drop_succ_cons]
    have hhead : skipSlot n = true ↔ request ∈ requests := by
      rw [← Nat.add_zero n, h 0]
      simp
    rw [preserve, ih hrest]
    by_cases hmem : request ∈ requests
    · rw [if_pos (hhead.2 hmem), List.dedup_cons_of_mem hmem]
    · rw [if_neg (fun hskip => hmem (hhead.1 hskip)), List.dedup_cons_of_notMem hmem]

/-- Compaction keeps the last occurrence of each request. -/
theorem compactCheckpointerRequestQueue_eq {inCritSection : Bool}
    {compacted : List CheckpointerRequest}
    (h : compactCheckpointerRequestQueue inCritSection requests = some compacted) :
    compacted = requests.dedup := by
  rw [compactCheckpointerRequestQueue] at h
  dsimp only at h
  split_ifs at h
  cases h
  refine preserve_eq_dedup fun i => ?_
  rw [compactLoop_skipSlot]
  simp

end Compact

end PgCutover.Sync
