import PgCutover.Transam.Clog

/-!
# Readers of a tree that commits

Any number of processes set the status of transaction trees while others ask
`TransactionIdDidCommit` and `TransactionIdDidAbort`. The processes take turns at every single
write of a status and at every single lookup: the locks on the commit log only make some of these
interleavings impossible.

The top-level transaction decides. Before its commit is written, no transaction of the tree is
marked committed; from then on each is committed or sub-committed, so that the search through the
parents ends at a commit. The time of this write is the time at which the whole tree commits
(`Committed.result`).
-/

namespace PgCutover.Transam

open Function List

/-! ### Lookups -/

/-- The single-item cache of a process. -/
structure FetchCache where
  xid : TransactionId
  status : XidStatus
  deriving DecidableEq, Repr

/-- `TransactionLogFetch`, which keeps the last final status in a cache. -/
def transactionLogFetch (clog : Clog) (cache : FetchCache) (xid : TransactionId) :
    XidStatus × FetchCache :=
  if xid = cache.xid then (cache.status, cache)
  else if !transactionIdIsNormal xid then
    if xid = bootstrapTransactionId then (.committed, cache)
    else if xid = frozenTransactionId then (.committed, cache)
    else (.aborted, cache)
  else
    let status := transactionIdGetStatus clog xid
    -- only a status that does not change is cached
    (status, if status ≠ .inProgress ∧ status ≠ .subCommitted then ⟨xid, status⟩ else cache)

/-- The parents of subtransactions. -/
abbrev Subtrans := TransactionId → TransactionId

/-- `SubTransGetParent`. -/
def subTransGetParent (subtrans : Subtrans) (xid : TransactionId) : TransactionId :=
  if !transactionIdIsNormal xid then invalidTransactionId else subtrans xid

/-- `TransactionIdDidCommit` and `TransactionIdDidAbort`. -/
inductive Query
  | didCommit
  | didAbort
  deriving DecidableEq, Repr

/-- What a query does with the status of a transaction: it returns, or asks for the parent. -/
inductive Progress
  | returned (result : Bool)
  | next (xid : TransactionId)
  deriving DecidableEq, Repr

/-- The recursion for a sub-committed transaction. Without the parent the answer is `unknown`. -/
def askParent (subtrans : Subtrans) (transactionXmin xid : TransactionId) (unknown : Bool) :
    Progress :=
  if transactionIdPrecedes xid transactionXmin then .returned unknown
  else
    let parentXid := subTransGetParent subtrans xid
    if !transactionIdIsValid parentXid then .returned unknown else .next parentXid

/-- One level of the recursion of `TransactionIdDidCommit` and `TransactionIdDidAbort`. -/
def Query.step (subtrans : Subtrans) (transactionXmin xid : TransactionId) :
    Query → XidStatus → Progress
  | didCommit, .committed => .returned true
  | didCommit, .subCommitted => askParent subtrans transactionXmin xid false
  | didCommit, _ => .returned false
  | didAbort, .aborted => .returned true
  | didAbort, .subCommitted => askParent subtrans transactionXmin xid true
  | didAbort, _ => .returned false

/-- A lookup leaves the cache alone or puts a final status from the log there. -/
theorem fetch_cache (clog : Clog) (cache : FetchCache) (xid : TransactionId) :
    (transactionLogFetch clog cache xid).2 = cache ∨
      (transactionIdGetStatus clog xid ≠ .inProgress ∧
        transactionIdGetStatus clog xid ≠ .subCommitted) ∧
      (transactionLogFetch clog cache xid).2 = ⟨xid, transactionIdGetStatus clog xid⟩ := by
  simp only [transactionLogFetch]
  split_ifs with _ _ _ _ hfinal
  all_goals first
    | exact .inl rfl
    | exact .inr ⟨hfinal, rfl⟩

/-! ### Processes -/

/-- A query in progress: what was asked, and the transaction that is looked at. -/
structure Call where
  query : Query
  asked : TransactionId
  xid : TransactionId
  transactionXmin : TransactionId
  started : ℕ
  deriving DecidableEq, Repr

/-- A reader: its cache and the call it is in. -/
structure Reader where
  cache : FetchCache
  call : Option Call
  deriving DecidableEq, Repr

/-- A query that has returned. -/
structure Answer (ρ : Type*) where
  reader : ρ
  query : Query
  asked : TransactionId
  result : Bool
  started : ℕ
  ended : ℕ

/-- Processes `ι` that set the status of trees, with the writes that are left, and processes `ρ`
that read. -/
structure System (ι ρ : Type*) where
  clog : Clog
  writers : ι → List StatusWrite
  readers : ρ → Reader
  clock : ℕ
  answers : List (Answer ρ)

/-- The steps of writers and of readers. -/
inductive Action (ι ρ : Type*)
  | setTree (w : ι) (xid : TransactionId) (subxids : List TransactionId) (status : XidStatus)
  | write (w : ι)
  | call (r : ρ) (query : Query) (xid transactionXmin : TransactionId)
  | fetch (r : ρ)

/-- What does not change: the mode of the server and the parents. -/
structure Setting where
  inRecovery : Bool
  subtrans : Subtrans

variable {ι ρ : Type*} [DecidableEq ι] [DecidableEq ρ]

namespace System

/-- A lookup of a reader, and the end of its query or the parent to look at next. -/
def fetchStep (env : Setting) (s : System ι ρ) (r : ρ) (c : Call) : System ι ρ :=
  let fetched := transactionLogFetch s.clog (s.readers r).cache c.xid
  match c.query.step env.subtrans c.transactionXmin c.xid fetched.1 with
  | .returned result =>
    { s with
      readers := update s.readers r ⟨fetched.2, none⟩
      answers := ⟨r, c.query, c.asked, result, c.started, s.clock⟩ :: s.answers
      clock := s.clock + 1 }
  | .next parentXid =>
    { s with
      readers := update s.readers r ⟨fetched.2, some { c with xid := parentXid }⟩
      clock := s.clock + 1 }

omit [DecidableEq ι] in
@[simp] theorem writers_fetchStep (env : Setting) (s : System ι ρ) (r : ρ) (c : Call) :
    (s.fetchStep env r c).writers = s.writers := by
  rw [fetchStep]
  split <;> rfl

omit [DecidableEq ι] in
@[simp] theorem clog_fetchStep (env : Setting) (s : System ι ρ) (r : ρ) (c : Call) :
    (s.fetchStep env r c).clog = s.clog := by
  rw [fetchStep]
  split <;> rfl

/-- One action, if the process can take it. -/
def step (env : Setting) (s : System ι ρ) : Action ι ρ → Option (System ι ρ)
  | .setTree w xid subxids status =>
    if s.writers w = [] then
      some { s with
        writers := update s.writers w (transactionIdSetTreeStatus xid subxids status)
        clock := s.clock + 1 }
    else none
  | .write w =>
    match s.writers w with
    | [] => none
    | (xid, status) :: rest =>
      some { s with
        clog := transactionIdSetStatusBit env.inRecovery s.clog xid status
        writers := update s.writers w rest
        clock := s.clock + 1 }
  | .call r query xid transactionXmin =>
    match (s.readers r).call with
    | some _ => none
    | none =>
      some { s with
        readers := update s.readers r
          ⟨(s.readers r).cache, some ⟨query, xid, xid, transactionXmin, s.clock⟩⟩
        clock := s.clock + 1 }
  | .fetch r =>
    match (s.readers r).call with
    | none => none
    | some c => some (s.fetchStep env r c)

/-- What a step does. -/
inductive Stepped (env : Setting) (s : System ι ρ) : Action ι ρ → System ι ρ → Prop
  | setTree {w : ι} {xid : TransactionId} {subxids : List TransactionId} {status : XidStatus} :
      s.writers w = [] → Stepped env s (.setTree w xid subxids status) { s with
        writers := update s.writers w (transactionIdSetTreeStatus xid subxids status)
        clock := s.clock + 1 }
  | write {w : ι} {xid : TransactionId} {status : XidStatus} {rest : List StatusWrite} :
      s.writers w = (xid, status) :: rest → Stepped env s (.write w) { s with
        clog := transactionIdSetStatusBit env.inRecovery s.clog xid status
        writers := update s.writers w rest
        clock := s.clock + 1 }
  | call {r : ρ} {query : Query} {xid transactionXmin : TransactionId} :
      (s.readers r).call = none → Stepped env s (.call r query xid transactionXmin) { s with
        readers := update s.readers r
          ⟨(s.readers r).cache, some ⟨query, xid, xid, transactionXmin, s.clock⟩⟩
        clock := s.clock + 1 }
  | fetch {r : ρ} {c : Call} :
      (s.readers r).call = some c → Stepped env s (.fetch r) (s.fetchStep env r c)

theorem stepped_of_step {env : Setting} {s s' : System ι ρ} {a : Action ι ρ}
    (h : s.step env a = some s') : Stepped env s a s' := by
  cases a with rw [step] at h
  | setTree =>
    split_ifs at h with hw
    cases h
    exact .setTree hw
  | write =>
    split at h
    · cases h
    · next hw =>
      cases h
      exact .write hw
  | call =>
    split at h
    · cases h
    · next hnone =>
      cases h
      exact .call hnone
  | fetch =>
    split at h
    · cases h
    · next c hc =>
      cases h
      exact .fetch hc

/-- The state after the actions, if all are possible. -/
def run (env : Setting) (s : System ι ρ) : List (Action ι ρ) → Option (System ι ρ)
  | [] => some s
  | a :: actions => (s.step env a).bind fun s => s.run env actions

end System

/-! ### Trees -/

/-- A top-level transaction with its committed subtransactions. The parent of each of them is in
the tree, and the parents lead to the top. -/
structure XactTree (subtrans : Subtrans) where
  top : TransactionId
  subxids : List TransactionId
  normal : ∀ x ∈ top :: subxids, transactionIdIsNormal x = true
  top_not_mem : top ∉ subxids
  parent_mem : ∀ x ∈ subxids, subtrans x ∈ top :: subxids
  parents : ∀ x ∈ subxids, ∃ n, subtrans^[n] x = top

namespace XactTree

variable {env : Setting} (tree : XactTree env.subtrans)

/-- The transaction is one of the tree. -/
def Mem (x : TransactionId) : Prop := x ∈ tree.top :: tree.subxids

/-- The tree is still running, and nobody is about to set its status or has asked for it. -/
structure Running (s : System ι ρ) : Prop where
  top : transactionIdGetStatus s.clog tree.top = .inProgress
  subxids : ∀ x ∈ tree.subxids, transactionIdGetStatus s.clog x = .inProgress ∨
    transactionIdGetStatus s.clog x = .subCommitted
  writers : ∀ w, ∀ write ∈ s.writers w, ¬ tree.Mem write.1
  caches : ∀ r, ¬ tree.Mem (s.readers r).cache.xid
  calls : ∀ r, (s.readers r).call = none
  answers : s.answers = []

/-- An action of a run in which the tree gets the status: calls of other processes are about
other transactions, and no transaction of the tree is older than `TransactionXmin` of a reader. -/
def Permits (status : XidStatus) : Action ι ρ → Prop
  | .setTree _ xid subxids st =>
    xid = tree.top ∧ subxids = tree.subxids ∧ st = status ∨ ∀ x ∈ xid :: subxids, ¬ tree.Mem x
  | .call _ _ _ transactionXmin => ∀ x, tree.Mem x → transactionIdPrecedes x transactionXmin = false
  | _ => True

/-! ### What readers see -/

/-- Every status of the tree, in the log or in a cache, is one of those allowed for the top-level
transaction and for subtransactions. A cached status is final. -/
structure Phase (Top Sub : XidStatus → Prop) (s : System ι ρ) : Prop where
  top : Top (transactionIdGetStatus s.clog tree.top)
  subxids : ∀ x ∈ tree.subxids, Sub (transactionIdGetStatus s.clog x)
  caches : ∀ r, tree.Mem (s.readers r).cache.xid →
    ((s.readers r).cache.status ≠ .inProgress ∧ (s.readers r).cache.status ≠ .subCommitted) ∧
      ((s.readers r).cache.xid = tree.top → Top (s.readers r).cache.status) ∧
      ((s.readers r).cache.xid ∈ tree.subxids → Sub (s.readers r).cache.status)

section Phase

variable {tree} {Top Sub : XidStatus → Prop} {s : System ι ρ}

omit [DecidableEq ι] [DecidableEq ρ] in
/-- A lookup sees an allowed status. -/
theorem Phase.fetch (h : tree.Phase Top Sub s) (r : ρ) {x : TransactionId} (hx : tree.Mem x) :
    (x = tree.top → Top (transactionLogFetch s.clog (s.readers r).cache x).1) ∧
      (x ∈ tree.subxids → Sub (transactionLogFetch s.clog (s.readers r).cache x).1) := by
  rw [transactionLogFetch]
  split_ifs with hcache hnormal
  · rw [hcache] at hx ⊢
    exact (h.caches r hx).2
  all_goals first
    | exact absurd (tree.normal x hx) (by simpa using hnormal)
    | exact ⟨fun heq => by rw [heq]; exact h.top, fun hsub => h.subxids x hsub⟩

variable {s' : System ι ρ}

omit [DecidableEq ι] in
/-- The cache of a reader holds what it has seen. -/
theorem Phase.setReader (h : tree.Phase Top Sub s) {r : ρ} {reader : Reader}
    {x : TransactionId} (hclog : s'.clog = s.clog)
    (hreaders : s'.readers = update s.readers r reader)
    (hcache : reader.cache = (s.readers r).cache ∨
      reader.cache = (transactionLogFetch s.clog (s.readers r).cache x).2) :
    tree.Phase Top Sub s' := by
  refine ⟨by rw [hclog]; exact h.top, by rw [hclog]; exact h.subxids, fun r' => ?_⟩
  rw [hreaders]
  by_cases hr : r' = r
  · subst hr
    rw [update_self]
    rcases hcache with hcache | hcache
    · rw [hcache]
      exact h.caches r'
    rcases fetch_cache s.clog (s.readers r').cache x with hold | ⟨hfinal, hnew⟩
    · rw [hcache, hold]
      exact h.caches r'
    · rw [hcache, hnew]
      exact fun _ => ⟨hfinal, fun heq => by dsimp only at heq ⊢; rw [heq]; exact h.top,
        fun hsub => h.subxids x hsub⟩
  · rw [update_of_ne hr]
    exact h.caches r'

omit [DecidableEq ι] [DecidableEq ρ] in
theorem Phase.write (h : tree.Phase Top Sub s) {xid : TransactionId} {status : XidStatus}
    (hclog : s'.clog = transactionIdSetStatusBit env.inRecovery s.clog xid status)
    (hreaders : s'.readers = s.readers) (htop : xid = tree.top → Top status)
    (hsub : xid ∈ tree.subxids → Sub status) : tree.Phase Top Sub s' := by
  have hself (P : XidStatus → Prop) (hold : P (transactionIdGetStatus s.clog xid))
      (hnew : P status) : P (transactionIdGetStatus s'.clog xid) := by
    rw [hclog, getStatus_setStatusBit_self]
    split_ifs with hsame
    · exact hsame.2.2 ▸ hold
    · exact hnew
  have hother (P : XidStatus → Prop) {x : TransactionId} (hne : xid ≠ x)
      (hold : P (transactionIdGetStatus s.clog x)) : P (transactionIdGetStatus s'.clog x) := by
    rwa [hclog, getStatus_setStatusBit_of_ne hne]
  refine ⟨?_, fun x hx => ?_, by rw [hreaders]; exact h.caches⟩
  · by_cases heq : xid = tree.top
    · rw [← heq]
      exact hself Top (heq ▸ h.top) (htop heq)
    · exact hother Top heq h.top
  · by_cases heq : xid = x
    · rw [← heq] at hx ⊢
      exact hself Sub (h.subxids _ hx) (hsub hx)
    · exact hother Sub heq (h.subxids x hx)

omit [DecidableEq ι] [DecidableEq ρ] in
theorem Phase.congr (h : tree.Phase Top Sub s) (hclog : s'.clog = s.clog)
    (hreaders : s'.readers = s.readers) : tree.Phase Top Sub s' :=
  ⟨by rw [hclog]; exact h.top, by rw [hclog]; exact h.subxids, by rw [hreaders]; exact h.caches⟩

end Phase

/-! ### Queries -/

/-- Queries about the tree stay in the tree. -/
structure Asking (s : System ι ρ) : Prop where
  inside : ∀ r c, (s.readers r).call = some c → tree.Mem c.asked → tree.Mem c.xid
  recent : ∀ r c, (s.readers r).call = some c → ∀ x, tree.Mem x →
    transactionIdPrecedes x c.transactionXmin = false
  started : ∀ r c, (s.readers r).call = some c → c.started < s.clock
  answers : ∀ a ∈ s.answers, a.started ≤ a.ended ∧ a.ended < s.clock

/-- Every lookup in the tree leads to the answer `result` of `TransactionIdDidCommit`, or to the
parent. -/
structure Decides (result : Bool) (Top Sub : XidStatus → Prop) : Prop where
  top : ∀ status, Top status → status ≠ .subCommitted
  verdict : ∀ status, Top status ∨ Sub status → status ≠ .subCommitted →
    (status = .committed ↔ result = true)

section Queries

variable {tree} {Top Sub : XidStatus → Prop} {s : System ι ρ} {result : Bool}

/-- A sub-committed transaction of the tree has its parent asked. -/
theorem askParent_eq {xid transactionXmin : TransactionId} {unknown : Bool}
    (hxid : xid ∈ tree.subxids) (hrecent : transactionIdPrecedes xid transactionXmin = false) :
    askParent env.subtrans transactionXmin xid unknown = .next (env.subtrans xid) := by
  have hnormal := tree.normal xid (mem_cons_of_mem _ hxid)
  have hparent := isValid_of_isNormal (tree.normal _ (tree.parent_mem xid hxid))
  simp [askParent, hrecent, subTransGetParent, hnormal, hparent]

omit [DecidableEq ι] [DecidableEq ρ] in
/-- A query about the tree: a final status is answered at once, a sub-committed one by asking the
parent. -/
theorem Phase.query (h : tree.Phase Top Sub s) (hasking : tree.Asking s)
    (hdecides : Decides result Top Sub) {r : ρ} {c : Call} (hcall : (s.readers r).call = some c)
    (hasked : tree.Mem c.asked) :
    (c.xid ∈ tree.subxids ∧
        c.query.step env.subtrans c.transactionXmin c.xid
          (transactionLogFetch s.clog (s.readers r).cache c.xid).1 = .next (env.subtrans c.xid)) ∨
      ∃ b, c.query.step env.subtrans c.transactionXmin c.xid
          (transactionLogFetch s.clog (s.readers r).cache c.xid).1 = .returned b ∧
        (c.query = .didCommit → b = result) := by
  have hmem := hasking.inside r c hcall hasked
  obtain ⟨htop, hsub⟩ := h.fetch r hmem
  generalize (transactionLogFetch s.clog (s.readers r).cache c.xid).1 = status at htop hsub ⊢
  have hstatus : Top status ∨ Sub status :=
    (mem_cons.mp hmem).imp htop hsub
  have hverdict := hdecides.verdict status hstatus
  by_cases hsubc : status = .subCommitted
  · left
    have hxid : c.xid ∈ tree.subxids :=
      (mem_cons.mp hmem).resolve_left fun heq => hdecides.top _ (htop heq) hsubc
    refine ⟨hxid, ?_⟩
    rw [hsubc]
    have hrecent := hasking.recent r c hcall c.xid hmem
    cases c.query <;> exact askParent_eq hxid hrecent
  · right
    cases status <;> cases c.query <;> simp_all [Query.step]

end Queries

/-! ### Runs -/

/-- The tree was committed at the time `T`, if at all, and the answers of `TransactionIdDidCommit`
changed at this time. -/
structure Watched (T : Option ℕ) (Top Sub : XidStatus → Prop) (s : System ι ρ) : Prop where
  phase : tree.Phase Top Sub s
  decides : Decides T.isSome Top Sub
  asking : tree.Asking s
  time : ∀ t ∈ T, t ≤ s.clock
  answers : ∀ a ∈ s.answers, tree.Mem a.asked → a.query = .didCommit →
    (a.result = true ↔ ∃ t ∈ T, t ≤ a.ended)

section Watched

variable {tree} {T : Option ℕ} {Top Sub : XidStatus → Prop} {s s' : System ι ρ}

omit [DecidableEq ι] [DecidableEq ρ] in
theorem Asking.tick (h : tree.Asking s) (hreaders : s'.readers = s.readers)
    (hanswers : s'.answers = s.answers) (hclock : s'.clock = s.clock + 1) : tree.Asking s' := by
  refine ⟨by rw [hreaders]; exact h.inside, by rw [hreaders]; exact h.recent, ?_, ?_⟩
  · rw [hreaders, hclock]
    exact fun r c hc => Nat.lt_succ_of_lt (h.started r c hc)
  · rw [hanswers, hclock]
    exact fun a ha => ⟨(h.answers a ha).1, Nat.lt_succ_of_lt (h.answers a ha).2⟩

omit [DecidableEq ι] [DecidableEq ρ] in
/-- A step of a writer, after which the statuses are still allowed. -/
theorem Watched.tick (h : tree.Watched T Top Sub s) (hphase : tree.Phase Top Sub s')
    (hreaders : s'.readers = s.readers) (hanswers : s'.answers = s.answers)
    (hclock : s'.clock = s.clock + 1) : tree.Watched T Top Sub s' := by
  refine ⟨hphase, h.decides, h.asking.tick hreaders hanswers hclock, ?_, ?_⟩
  · rw [hclock]
    exact fun t ht => Nat.le_succ_of_le (h.time t ht)
  · rw [hanswers]
    exact h.answers

variable {r : ρ}

omit [DecidableEq ι] in
/-- A new state of one reader. -/
theorem Asking.setReader (h : tree.Asking s) {reader : Reader}
    (hreaders : s'.readers = update s.readers r reader)
    (hanswers : ∀ a ∈ s'.answers, a.started ≤ a.ended ∧ a.ended < s'.clock)
    (hclock : s'.clock = s.clock + 1)
    (hcall : ∀ c, reader.call = some c → (tree.Mem c.asked → tree.Mem c.xid) ∧
      (∀ x, tree.Mem x → transactionIdPrecedes x c.transactionXmin = false) ∧
      c.started < s'.clock) : tree.Asking s' := by
  have hother {r' : ρ} (hr : r' ≠ r) : s'.readers r' = s.readers r' := by
    rw [hreaders, update_of_ne hr]
  have hself : s'.readers r = reader := by rw [hreaders, update_self]
  refine ⟨fun r' c hc => ?_, fun r' c hc => ?_, fun r' c hc => ?_, hanswers⟩ <;>
    by_cases hr : r' = r
  · rw [hr, hself] at hc
    exact (hcall c hc).1
  · rw [hother hr] at hc
    exact h.inside r' c hc
  · rw [hr, hself] at hc
    exact (hcall c hc).2.1
  · rw [hother hr] at hc
    exact h.recent r' c hc
  · rw [hr, hself] at hc
    exact (hcall c hc).2.2
  · rw [hother hr] at hc
    exact hclock ▸ Nat.lt_succ_of_lt (h.started r' c hc)

omit [DecidableEq ι] in
/-- A lookup keeps the record of answers right. -/
theorem Watched.fetch (h : tree.Watched T Top Sub s) {c : Call}
    (hcall : (s.readers r).call = some c) : tree.Watched T Top Sub (s.fetchStep env r c) := by
  have hstarted := h.asking.started r c hcall
  have hold : ∀ a ∈ s.answers, a.started ≤ a.ended ∧ a.ended < s.clock + 1 := fun a ha =>
    ⟨(h.asking.answers a ha).1, Nat.lt_succ_of_lt (h.asking.answers a ha).2⟩
  have htime : ∀ t ∈ T, t ≤ s.clock + 1 := fun t ht => Nat.le_succ_of_le (h.time t ht)
  have hquery := h.phase.query h.asking h.decides hcall
  rw [System.fetchStep]
  cases hstep : c.query.step env.subtrans c.transactionXmin c.xid
      (transactionLogFetch s.clog (s.readers r).cache c.xid).1 with
  | returned =>
    refine ⟨h.phase.setReader rfl rfl (.inr rfl), h.decides,
      h.asking.setReader rfl ?_ rfl (fun c hc => by cases hc), htime, ?_⟩
    · intro a ha
      rcases mem_cons.mp ha with rfl | ha
      · exact ⟨Nat.le_of_lt hstarted, Nat.lt_succ_self _⟩
      · exact hold a ha
    · intro a ha hmem hcommit
      rcases mem_cons.mp ha with rfl | ha
      · -- the query returns now, after the time of the commit if there was one
        rcases hquery hmem with ⟨-, hnext⟩ | ⟨_, hb', hresult⟩
        · rw [hstep] at hnext
          cases hnext
        · rw [hstep] at hb'
          cases hb'
          have hb := hresult hcommit
          rw [hb, Option.isSome_iff_exists]
          exact ⟨fun ⟨t, ht⟩ => ⟨t, ht, h.time t ht⟩, fun ⟨t, ht, _⟩ => ⟨t, ht⟩⟩
      · exact h.answers a ha hmem hcommit
  | next =>
    refine ⟨h.phase.setReader rfl rfl (.inr rfl), h.decides,
      h.asking.setReader rfl hold rfl ?_, htime, h.answers⟩
    intro _ hc'
    cases hc'
    refine ⟨fun hmem => ?_, h.asking.recent r c hcall, Nat.lt_succ_of_lt hstarted⟩
    rcases hquery hmem with ⟨hsub, hnext⟩ | ⟨b, hb, -⟩
    · rw [hstep] at hnext
      cases hnext
      exact tree.parent_mem c.xid hsub
    · rw [hstep] at hb
      cases hb

omit [DecidableEq ι] in
theorem Watched.call (h : tree.Watched T Top Sub s) {query : Query}
    {xid transactionXmin : TransactionId}
    (hrecent : ∀ x, tree.Mem x → transactionIdPrecedes x transactionXmin = false) :
    tree.Watched T Top Sub { s with
      readers := update s.readers r
        ⟨(s.readers r).cache, some ⟨query, xid, xid, transactionXmin, s.clock⟩⟩
      clock := s.clock + 1 } := by
  refine ⟨h.phase.setReader (x := xid) rfl rfl (.inl rfl), h.decides,
    h.asking.setReader rfl ?_ rfl ?_, fun t ht => Nat.le_succ_of_le (h.time t ht), h.answers⟩
  · exact fun a ha => ⟨(h.asking.answers a ha).1, Nat.lt_succ_of_lt (h.asking.answers a ha).2⟩
  · intro c hc
    cases hc
    exact ⟨id, hrecent, Nat.lt_succ_self _⟩

end Watched

/-! ### Writes that change no answer -/

section Settled

variable {tree} {T : Option ℕ} {Top Sub : XidStatus → Prop} {s s' : System ι ρ}
  {writes : List StatusWrite}

def Allowed (tree : XactTree env.subtrans) (Top Sub : XidStatus → Prop)
    (writes : List StatusWrite) : Prop :=
  ∀ p ∈ writes, (p.1 = tree.top → Top p.2) ∧ (p.1 ∈ tree.subxids → Sub p.2)

theorem allowed_of_not_mem (h : ∀ p ∈ writes, ¬ tree.Mem p.1) : Allowed tree Top Sub writes :=
  fun p hp => ⟨fun heq => absurd (mem_cons.mpr (.inl heq)) (h p hp),
    fun hsub => absurd (mem_cons_of_mem _ hsub) (h p hp)⟩

theorem Watched.step (h : tree.Watched T Top Sub s)
    (hallowed : ∀ w, Allowed tree Top Sub (s.writers w)) {status : XidStatus} {a : Action ι ρ}
    (ha : tree.Permits status a)
    (hnew : ∀ w xid subxids st, a = .setTree w xid subxids st →
      Allowed tree Top Sub (transactionIdSetTreeStatus xid subxids st))
    (hstep : s.Stepped env a s') :
    tree.Watched T Top Sub s' ∧ ∀ w, Allowed tree Top Sub (s'.writers w) := by
  cases hstep with
  | @setTree w xid subxids st _ =>
    exact ⟨h.tick (h.phase.congr rfl rfl) rfl rfl rfl,
      (forall_update_iff _ _).mpr ⟨hnew w xid subxids st rfl, fun w' _ => hallowed w'⟩⟩
  | @write w xid st rest hw =>
    have hw' := hallowed w
    rw [hw] at hw'
    obtain ⟨htop, hsub⟩ := hw' (xid, st) mem_cons_self
    exact ⟨h.tick (h.phase.write rfl rfl htop hsub) rfl rfl rfl,
      (forall_update_iff _ _).mpr
        ⟨fun p hp => hw' p (mem_cons_of_mem _ hp), fun w' _ => hallowed w'⟩⟩
  | call _ => exact ⟨h.call ha, hallowed⟩
  | @fetch r c hc => exact ⟨h.fetch hc, by rwa [System.writers_fetchStep]⟩

end Settled

/-! ### Commits -/

section Commit

variable {tree}

/-- The statuses before and after the commit of the top-level transaction. -/
def BeforeTop (status : XidStatus) : Prop := status = .inProgress

/-- A status of a subtransaction before the top is committed. -/
def BeforeSub (status : XidStatus) : Prop := status = .inProgress ∨ status = .subCommitted

/-- The status of the top after the commit. -/
def AfterTop (status : XidStatus) : Prop := status = .committed

/-- A status of a subtransaction after the commit of the top. -/
def AfterSub (status : XidStatus) : Prop := status = .subCommitted ∨ status = .committed

/-- What is left of a commit of the tree, with the subtransactions that are not sub-committed yet
in front. -/
def CommitRest (tree : XactTree env.subtrans) (clog : Clog) (writes : List StatusWrite) : Prop :=
  ∃ before after, writes = before ++ (tree.top, .committed) :: after ∧
    (∀ p ∈ before, p.1 ∈ tree.subxids ∧ p.2 = .subCommitted) ∧
    (∀ x ∈ tree.subxids, transactionIdGetStatus clog x = .subCommitted ∨
      (x, .subCommitted) ∈ before) ∧
    ∀ p ∈ after, p.1 ∈ tree.subxids ∧ p.2 = .committed

/-- Before the commit, a process either has nothing to write to the tree or is committing it. -/
def Pending (tree : XactTree env.subtrans) (clog : Clog) (writes : List StatusWrite) : Prop :=
  (∀ p ∈ writes, ¬ tree.Mem p.1) ∨ CommitRest tree clog writes

/-- The top of a tree that commits is still to be committed, or it is. -/
inductive Committing (tree : XactTree env.subtrans) (s : System ι ρ) : Prop
  | before : tree.Watched none BeforeTop BeforeSub s →
      (∀ w, Pending tree s.clog (s.writers w)) → Committing tree s
  | after {t : ℕ} : tree.Watched (some t) AfterTop AfterSub s →
      (∀ w, Allowed tree AfterTop AfterSub (s.writers w)) → Committing tree s

variable {Top Sub : XidStatus → Prop} {s s' : System ι ρ} {clog clog' : Clog}
  {writes : List StatusWrite} {x : TransactionId}

theorem decides_before : Decides false BeforeTop BeforeSub := by
  refine ⟨?_, ?_⟩
  · rintro _ rfl
    decide
  · rintro status (rfl | rfl | rfl) <;> decide

theorem decides_after : Decides true AfterTop AfterSub := by
  refine ⟨?_, ?_⟩
  · rintro _ rfl
    decide
  · rintro status (rfl | rfl | rfl) <;> decide

theorem commitRest_setTree (tree : XactTree env.subtrans) (clog : Clog) :
    CommitRest tree clog (transactionIdSetTreeStatus tree.top tree.subxids .committed) := by
  have hvalid := isValid_of_isNormal (tree.normal tree.top mem_cons_self)
  obtain ⟨before, after, hwrites, hbefore, hall, hafter⟩ := setTreeStatus_committed hvalid
  exact ⟨before, after, hwrites, hbefore, fun x hx => .inr (hall x hx), hafter⟩

theorem CommitRest.mono (h : CommitRest tree clog writes)
    (hclog : ∀ x ∈ tree.subxids, transactionIdGetStatus clog x = .subCommitted →
      transactionIdGetStatus clog' x = .subCommitted) : CommitRest tree clog' writes := by
  obtain ⟨before, after, hwrites, hbefore, hall, hafter⟩ := h
  exact ⟨before, after, hwrites, hbefore, fun x hx => (hall x hx).imp_left (hclog x hx), hafter⟩

/-- All writes of a commit are allowed from the commit of the top-level transaction on. -/
theorem Pending.allowed (h : Pending tree clog writes) : Allowed tree AfterTop AfterSub writes := by
  rcases h with hother | ⟨_, _, rfl, hbefore, -, hafter⟩
  · exact allowed_of_not_mem hother
  intro p hp
  rcases mem_append.mp hp with hp | hp
  · obtain ⟨hsub, hstatus⟩ := hbefore p hp
    exact ⟨fun heq => absurd (heq ▸ hsub) tree.top_not_mem, fun _ => .inl hstatus⟩
  rcases mem_cons.mp hp with rfl | hp
  · exact ⟨fun _ => rfl, fun _ => .inr rfl⟩
  · obtain ⟨hsub, hstatus⟩ := hafter p hp
    exact ⟨fun heq => absurd (heq ▸ hsub) tree.top_not_mem, fun _ => .inr hstatus⟩

theorem Pending.mono (h : Pending tree clog writes)
    (hclog : ∀ x ∈ tree.subxids, transactionIdGetStatus clog x = .subCommitted →
      transactionIdGetStatus clog' x = .subCommitted) : Pending tree clog' writes :=
  h.imp_right fun h => h.mono hclog

/-- The writes of a call in the run. -/
theorem pending_setTree {xid : TransactionId} {subxids : List TransactionId} {status : XidStatus}
    (hpermits : xid = tree.top ∧ subxids = tree.subxids ∧ status = .committed ∨
      ∀ x ∈ xid :: subxids, ¬ tree.Mem x) :
    Pending tree clog (transactionIdSetTreeStatus xid subxids status) := by
  rcases hpermits with ⟨rfl, rfl, rfl⟩ | hother
  · exact .inr (commitRest_setTree tree clog)
  · exact .inl fun p hp => hother _ (mem_of_mem_setTreeStatus hp)

omit [DecidableEq ι] [DecidableEq ρ] in
/-- The write that commits the tree: all subtransactions are sub-committed, and no process has
cached a status of the tree. -/
theorem Watched.commit (h : tree.Watched none BeforeTop BeforeSub s)
    (hsubs : ∀ x ∈ tree.subxids, transactionIdGetStatus s.clog x = .subCommitted)
    (hclog : s'.clog = transactionIdSetStatusBit env.inRecovery s.clog tree.top .committed)
    (hreaders : s'.readers = s.readers) (hanswers : s'.answers = s.answers)
    (hclock : s'.clock = s.clock + 1) : tree.Watched (some s.clock) AfterTop AfterSub s' := by
  refine ⟨⟨?_, fun x hx => ?_, fun r hmem => ?_⟩, decides_after,
    h.asking.tick hreaders hanswers hclock, ?_, fun a ha hmem hcommit => ?_⟩
  · rw [hclog, getStatus_setStatusBit_self, if_neg (by simp)]
    rfl
  · have hne : tree.top ≠ x := fun heq => tree.top_not_mem (heq ▸ hx)
    rw [hclog, getStatus_setStatusBit_of_ne hne]
    exact .inl (hsubs x hx)
  · rw [hreaders] at hmem ⊢
    obtain ⟨⟨hip, hsub⟩, htop, hsubx⟩ := h.phase.caches r hmem
    rcases mem_cons.mp hmem with heq | hx
    · exact absurd (htop heq) hip
    · exact absurd (hsubx hx) (by simp [BeforeSub, hip, hsub])
  · intro t ht
    cases ht
    omega
  · rw [hanswers] at ha
    have hended := (h.asking.answers a ha).2
    rw [h.answers a ha hmem hcommit]
    simp only [Option.mem_def, reduceCtorEq, false_and, exists_false, Option.some.injEq,
      exists_eq_left', false_iff]
    omega

omit [DecidableEq ρ] in
theorem Committing.write (hwatched : tree.Watched none BeforeTop BeforeSub s)
    (hpending : ∀ w, Pending tree s.clog (s.writers w)) {w : ι} {xid : TransactionId}
    {status : XidStatus} {rest : List StatusWrite} (hw : s.writers w = (xid, status) :: rest) :
    Committing tree { s with
      clog := transactionIdSetStatusBit env.inRecovery s.clog xid status
      writers := update s.writers w rest
      clock := s.clock + 1 } := by
  rcases hw ▸ hpending w with hother | ⟨before, after, hwrites, hbefore, hall, hafter⟩
  · -- a write of another transaction
    have hxid : ¬ tree.Mem xid := hother (xid, status) mem_cons_self
    have hkeep : ∀ x ∈ tree.subxids, transactionIdGetStatus s.clog x = .subCommitted →
        transactionIdGetStatus (transactionIdSetStatusBit env.inRecovery s.clog xid status) x =
          .subCommitted := fun x hx hsub => by
      have hne : xid ≠ x := fun heq => hxid (heq ▸ mem_cons_of_mem _ hx)
      rwa [getStatus_setStatusBit_of_ne hne]
    obtain ⟨htop, hsub⟩ := allowed_of_not_mem hother (xid, status) mem_cons_self
    exact .before (hwatched.tick (hwatched.phase.write rfl rfl htop hsub) rfl rfl rfl)
      ((forall_update_iff _ _).mpr
        ⟨.inl fun p hp => hother p (mem_cons_of_mem _ hp),
          fun w' _ => (hpending w').mono hkeep⟩)
  cases before with
  | nil =>
    -- all subtransactions are sub-committed, and the top-level transaction commits
    cases hwrites
    have hrest : Allowed tree AfterTop AfterSub rest := fun p hp =>
      (hw ▸ (hpending w).allowed) p (mem_cons_of_mem _ hp)
    exact .after
      (hwatched.commit (fun x hx => (hall x hx).resolve_right (by simp)) rfl rfl rfl rfl)
      ((forall_update_iff _ _).mpr ⟨hrest, fun w' _ => (hpending w').allowed⟩)
  | cons p before =>
    -- another subtransaction is sub-committed
    obtain ⟨hsub, hstatus⟩ := hbefore p mem_cons_self
    cases hwrites
    subst hstatus
    have hnew : transactionIdGetStatus
        (transactionIdSetStatusBit env.inRecovery s.clog xid .subCommitted) xid =
        .subCommitted := by
      have hold := hwatched.phase.subxids xid hsub
      rw [getStatus_setStatusBit_self, if_neg]
      rintro ⟨-, -, hcommitted⟩
      rw [hcommitted] at hold
      exact absurd hold (by simp [BeforeSub])
    have hkeep : ∀ x ∈ tree.subxids, transactionIdGetStatus s.clog x = .subCommitted →
        transactionIdGetStatus
          (transactionIdSetStatusBit env.inRecovery s.clog xid .subCommitted) x =
          .subCommitted := fun x _ hx => by
      by_cases heq : xid = x
      · rw [← heq, hnew]
      · rwa [getStatus_setStatusBit_of_ne heq]
    refine .before (hwatched.tick (hwatched.phase.write rfl rfl ?_ fun _ => .inr rfl) rfl rfl rfl)
      ((forall_update_iff _ _).mpr ⟨.inr ⟨before, after, rfl, ?_, fun x hx => ?_, hafter⟩,
        fun w' _ => (hpending w').mono hkeep⟩)
    · exact fun heq => absurd (heq ▸ hsub) tree.top_not_mem
    · exact fun p hp => hbefore p (mem_cons_of_mem _ hp)
    · rcases hall x hx with hsubc | hmem
      · exact .inl (hkeep x hx hsubc)
      · rcases mem_cons.mp hmem with heq | hmem
        · cases heq
          exact .inl hnew
        · exact .inr hmem

theorem Committing.step (h : Committing tree s) {a : Action ι ρ} (ha : tree.Permits .committed a)
    (hstep : s.Stepped env a s') : Committing tree s' := by
  cases h with
  | after hwatched hallowed =>
    have hnew : ∀ w xid subxids st, a = .setTree w xid subxids st →
        Allowed tree AfterTop AfterSub (transactionIdSetTreeStatus xid subxids st) := by
      rintro w xid subxids st rfl
      have hpending : Pending tree s.clog (transactionIdSetTreeStatus xid subxids st) :=
        pending_setTree ha
      exact hpending.allowed
    obtain ⟨hwatched', hallowed'⟩ := hwatched.step hallowed ha hnew hstep
    exact .after hwatched' hallowed'
  | before hwatched hpending =>
    cases hstep with
    | setTree _ =>
      exact .before (hwatched.tick (hwatched.phase.congr rfl rfl) rfl rfl rfl)
        ((forall_update_iff _ _).mpr ⟨pending_setTree ha, fun w' _ => hpending w'⟩)
    | write hw => exact Committing.write hwatched hpending hw
    | call _ => exact .before (hwatched.call ha) hpending
    | fetch hc => exact .before (hwatched.fetch hc) (by simpa using hpending)

end Commit

/-! ### Aborts -/

section Abort

variable {tree} {s s' : System ι ρ}

/-- A status of the top of a tree that aborts. -/
def AbortTop (status : XidStatus) : Prop := status = .inProgress ∨ status = .aborted

/-- A status of a subtransaction of a tree that aborts. -/
def AbortSub (status : XidStatus) : Prop :=
  status = .inProgress ∨ status = .subCommitted ∨ status = .aborted

/-- No transaction of the tree is committed, or will be. -/
structure Aborting (tree : XactTree env.subtrans) (s : System ι ρ) : Prop where
  watched : tree.Watched none AbortTop AbortSub s
  allowed : ∀ w, Allowed tree AbortTop AbortSub (s.writers w)

theorem decides_abort : Decides false AbortTop AbortSub := by
  refine ⟨?_, ?_⟩
  · rintro _ (rfl | rfl) <;> decide
  · rintro status ((rfl | rfl) | rfl | rfl | rfl) <;> decide

theorem Aborting.step (h : Aborting tree s) {a : Action ι ρ} (ha : tree.Permits .aborted a)
    (hstep : s.Stepped env a s') : Aborting tree s' := by
  have hnew : ∀ w xid subxids st, a = .setTree w xid subxids st →
      Allowed tree AbortTop AbortSub (transactionIdSetTreeStatus xid subxids st) := by
    rintro w _ _ _ rfl
    rcases ha with ⟨rfl, rfl, rfl⟩ | hother
    · intro p hp
      have hvalid := isValid_of_isNormal (tree.normal tree.top mem_cons_self)
      have := (mem_setTreeStatus_aborted hvalid hp).2
      exact ⟨fun _ => .inr this, fun _ => .inr (.inr this)⟩
    · exact allowed_of_not_mem fun p hp => hother _ (mem_of_mem_setTreeStatus hp)
  obtain ⟨hwatched, hallowed⟩ := h.watched.step h.allowed ha hnew hstep
  exact ⟨hwatched, hallowed⟩

end Abort

/-! ### Every query returns -/

section Returns

variable {tree} {T : Option ℕ} {Top Sub : XidStatus → Prop} {s s' : System ι ρ} {r : ρ} {c : Call}

/-- The query of a reader has been answered. -/
def Answered (s : System ι ρ) (r : ρ) (c : Call) : Prop :=
  ∃ a ∈ s.answers, a.reader = r ∧ a.query = c.query ∧ a.asked = c.asked ∧ a.started = c.started

omit [DecidableEq ι] in
/-- A lookup of the reader answers the query or goes on to the parent. -/
theorem Watched.fetch_progress (h : tree.Watched T Top Sub s) (hcall : (s.readers r).call = some c)
    (hmem : tree.Mem c.asked) :
    Answered (s.fetchStep env r c) r c ∨ c.xid ∈ tree.subxids ∧
      ((s.fetchStep env r c).readers r).call = some { c with xid := env.subtrans c.xid } := by
  rw [System.fetchStep]
  rcases h.phase.query h.asking h.decides hcall hmem with ⟨hsub, hnext⟩ | ⟨b, hb, -⟩
  · right
    simp only [hnext]
    exact ⟨hsub, by rw [update_self]⟩
  · left
    simp only [hb]
    exact ⟨_, mem_cons_self, rfl, rfl, rfl, rfl⟩

variable {actions : List (Action ι ρ)} {a : Action ι ρ}

/-- Other actions leave the query alone. -/
theorem call_of_stepped (hstep : s.Stepped env a s')
    (hcall : (s.readers r).call = some c) (ha : a ≠ .fetch r) :
    (s'.readers r).call = some c := by
  cases hstep with
  | setTree _ | write _ => exact hcall
  | @call r' _ _ _ hnone =>
    have hne : r ≠ r' := by
      rintro rfl
      rw [hnone] at hcall
      cases hcall
    dsimp only
    rwa [update_of_ne hne]
  | @fetch r' _ _ =>
    have hne : r ≠ r' := fun heq => ha (heq ▸ rfl)
    rw [System.fetchStep]
    split
    all_goals
      dsimp only
      rwa [update_of_ne hne]

theorem Answered.step (h : Answered s r c) (hstep : s.Stepped env a s') :
    Answered s' r c := by
  obtain ⟨a', ha', hrest⟩ := h
  refine ⟨a', ?_, hrest⟩
  cases hstep with
  | setTree _ | write _ | call _ => exact ha'
  | fetch _ =>
    rw [System.fetchStep]
    split
    · exact mem_cons_of_mem _ ha'
    · exact ha'

/-- The lookups of a reader in a run. -/
def fetchesOf (r : ρ) (actions : List (Action ι ρ)) : ℕ :=
  actions.countP fun
    | .fetch r' => r' = r
    | _ => false

theorem run_cons (hrun : s.run env (a :: actions) = some s') :
    ∃ s₁, s.Stepped env a s₁ ∧ s₁.run env actions = some s' := by
  obtain ⟨s₁, hstep, hrest⟩ := Option.bind_eq_some_iff.mp hrun
  exact ⟨s₁, System.stepped_of_step hstep, hrest⟩

theorem run_invariant {Inv : System ι ρ → Prop} {status : XidStatus}
    (hinv : ∀ s s' a, Inv s → tree.Permits status a → s.Stepped env a s' → Inv s')
    (hactions : ∀ a ∈ actions, tree.Permits status a) (h : Inv s)
    (hrun : s.run env actions = some s') : Inv s' := by
  induction actions generalizing s with
  | nil =>
    cases hrun
    exact h
  | cons a _ ih =>
    obtain ⟨s₁, hstep, hrest⟩ := run_cons hrun
    exact ih (fun b hb => hactions b (mem_cons_of_mem _ hb))
      (hinv s s₁ a h (hactions a mem_cons_self) hstep) hrest

theorem Answered.run (h : Answered s r c)
    (hrun : s.run env actions = some s') : Answered s' r c := by
  induction actions generalizing s with
  | nil =>
    cases hrun
    exact h
  | cons _ _ ih =>
    obtain ⟨_, hstep, hrest⟩ := run_cons hrun
    exact ih (h.step hstep) hrest

/-- A query about the tree is answered when the reader has made more lookups than there are
parents to ask. -/
theorem answered_of_fetches {Inv : System ι ρ → Prop} {status : XidStatus}
    (hinv : ∀ s s' a, Inv s → tree.Permits status a → s.Stepped env a s' → Inv s')
    (hwatched : ∀ s, Inv s → ∃ T Top Sub, tree.Watched T Top Sub s)
    (hactions : ∀ a ∈ actions, tree.Permits status a) (h : Inv s)
    (hrun : s.run env actions = some s') (hcall : (s.readers r).call = some c)
    (hmem : tree.Mem c.asked) {n : ℕ} (hn : env.subtrans^[n] c.xid = tree.top)
    (hfetches : n < fetchesOf r actions) : Answered s' r c := by
  -- by induction on the run, with fewer parents left after each lookup
  induction actions generalizing s c n with
  | nil => exact absurd hfetches (Nat.not_lt_zero n)
  | cons a actions ih =>
    obtain ⟨s₁, hstep, hrest⟩ := run_cons hrun
    have hactions' : ∀ b ∈ actions, tree.Permits status b := fun b hb =>
      hactions b (mem_cons_of_mem _ hb)
    have h₁ := hinv s s₁ a h (hactions a mem_cons_self) hstep
    by_cases ha : a = .fetch r
    · subst ha
      have hcount : fetchesOf r ((.fetch r : Action ι ρ) :: actions) = fetchesOf r actions + 1 :=
        countP_cons_of_pos (by simp)
      cases hstep with
      | @fetch _ c' hc' =>
        rw [hcall] at hc'
        cases hc'
        obtain ⟨T, _, _, hw⟩ := hwatched s h
        rcases hw.fetch_progress hcall hmem with hdone | ⟨hsub, hnext⟩
        · exact hdone.run hrest
        · cases n with
          | zero => exact absurd (hn ▸ hsub) tree.top_not_mem
          | succ =>
            obtain ⟨a', ha', hreader, hquery, hasked, hstarted⟩ :=
              ih hactions' h₁ hrest hnext hmem hn (by omega)
            exact ⟨a', ha', hreader, hquery, hasked, hstarted⟩
    · have hcount : fetchesOf r (a :: actions) = fetchesOf r actions := by
        refine countP_cons_of_neg ?_
        cases a with
        | fetch r' =>
          have hne : r' ≠ r := fun heq => ha (by rw [heq])
          simpa using hne
        | _ => simp
      exact ih hactions' h₁ hrest (call_of_stepped hstep hcall ha) hmem hn (by omega)

end Returns

/-! ### Atomicity -/

section Atomicity

variable {tree} {s s' : System ι ρ}

variable {Top Sub : XidStatus → Prop}

omit [DecidableEq ι] [DecidableEq ρ] in
theorem Running.watched (h : tree.Running s)
    (htop : Top .inProgress) (hsub : Sub .inProgress ∧ Sub .subCommitted)
    (hdecides : Decides false Top Sub) : tree.Watched none Top Sub s := by
  refine ⟨⟨by rw [h.top]; exact htop, fun x hx => ?_, fun r hmem => absurd hmem (h.caches r)⟩,
    hdecides, ⟨?_, ?_, ?_, ?_⟩, by simp, by simp [h.answers]⟩
  · rcases h.subxids x hx with heq | heq <;> rw [heq]
    exacts [hsub.1, hsub.2]
  all_goals simp [h.calls, h.answers]

omit [DecidableEq ι] [DecidableEq ρ] in
theorem Running.committing (h : tree.Running s) : Committing tree s :=
  .before (h.watched rfl ⟨.inl rfl, .inr rfl⟩ decides_before) fun w => .inl (h.writers w)

omit [DecidableEq ι] [DecidableEq ρ] in
theorem Running.aborting (h : tree.Running s) : Aborting tree s :=
  ⟨h.watched (.inl rfl) ⟨.inl rfl, .inr (.inl rfl)⟩ decides_abort,
    fun w => allowed_of_not_mem (h.writers w)⟩

/-- An answer of `TransactionIdDidCommit` about the tree. -/
def Asks (tree : XactTree env.subtrans) (a : Answer ρ) : Prop :=
  tree.Mem a.asked ∧ a.query = .didCommit

/-- Once a query about the tree was answered with true, every later one is. -/
def AnswersAtomic (tree : XactTree env.subtrans) (s : System ι ρ) : Prop :=
  ∀ a ∈ s.answers, ∀ b ∈ s.answers, tree.Asks a → tree.Asks b → a.result = true →
    a.ended < b.started → b.result = true

/-- No query about the tree was answered with true. -/
def NeverTrue (tree : XactTree env.subtrans) (s : System ι ρ) : Prop :=
  ∀ a ∈ s.answers, tree.Asks a → a.result = false

/-- A query about the tree that is in progress returns, however the processes go on. -/
def QueriesReturn (tree : XactTree env.subtrans) (status : XidStatus) (s : System ι ρ) : Prop :=
  ∀ r c, (s.readers r).call = some c → tree.Mem c.asked →
    ∃ n, ∀ actions s', (∀ a ∈ actions, tree.Permits status a) → s.run env actions = some s' →
      n < fetchesOf r actions → Answered s' r c

omit [DecidableEq ι] [DecidableEq ρ] in
theorem Watched.answersAtomic {T : Option ℕ}
    (h : tree.Watched T Top Sub s) : AnswersAtomic tree s := by
  intro a ha b hb hasked hasked' htrue hlater
  obtain ⟨t, ht, hle⟩ := (h.answers a ha hasked.1 hasked.2).mp htrue
  have := (h.asking.answers b hb).1
  exact (h.answers b hb hasked'.1 hasked'.2).mpr ⟨t, ht, by omega⟩

omit [DecidableEq ι] [DecidableEq ρ] in
theorem Watched.neverTrue (h : tree.Watched none Top Sub s) :
    NeverTrue tree s := by
  intro a ha hasked
  rw [Bool.eq_false_iff, ne_eq, h.answers a ha hasked.1 hasked.2]
  simp

omit [DecidableEq ι] [DecidableEq ρ] in
theorem Watched.exists_parents {T : Option ℕ}
    (h : tree.Watched T Top Sub s) {r : ρ} {c : Call} (hcall : (s.readers r).call = some c)
    (hmem : tree.Mem c.asked) : ∃ n, env.subtrans^[n] c.xid = tree.top := by
  rcases mem_cons.mp (h.asking.inside r c hcall hmem) with heq | hsub
  · exact ⟨0, heq⟩
  · exact tree.parents c.xid hsub

omit [DecidableEq ι] [DecidableEq ρ] in
theorem Committing.watched (h : Committing tree s) : ∃ T Top Sub, tree.Watched T Top Sub s := by
  cases h with
  | before hwatched _ | after hwatched _ => exact ⟨_, _, _, hwatched⟩

theorem queriesReturn {Inv : System ι ρ → Prop} {status : XidStatus}
    (hinv : ∀ s s' a, Inv s → tree.Permits status a → s.Stepped env a s' → Inv s')
    (hwatched : ∀ s, Inv s → ∃ T Top Sub, tree.Watched T Top Sub s) (h : Inv s) :
    QueriesReturn tree status s := by
  intro r c hcall hmem
  obtain ⟨T, _, _, hw⟩ := hwatched s h
  obtain ⟨n, hn⟩ := hw.exists_parents hcall hmem
  exact ⟨n, fun actions s' hactions hrun hfetches =>
    answered_of_fetches hinv hwatched hactions h hrun hcall hmem hn hfetches⟩

end Atomicity

end XactTree

open XactTree in
/-- In every run in which a tree is committed, the first reader that gets true for some
transaction of the tree is followed only by readers that get true for any of them; in a run in
which it is aborted, no reader gets true. Queries return in both. -/
theorem didCommit_atomic {env : Setting} (tree : XactTree env.subtrans) {s s' : System ι ρ}
    (h : tree.Running s) {status : XidStatus} {actions : List (Action ι ρ)}
    (hactions : ∀ a ∈ actions, tree.Permits status a) (hrun : s.run env actions = some s') :
    (status = .committed → tree.AnswersAtomic s' ∧ tree.QueriesReturn status s') ∧
      (status = .aborted → tree.NeverTrue s' ∧ tree.QueriesReturn status s') := by
  refine ⟨?_, ?_⟩
  · rintro rfl
    have hinv : ∀ s s' (a : Action ι ρ), Committing tree s → tree.Permits .committed a →
        s.Stepped env a s' → Committing tree s' := fun s s' a h ha hstep => h.step ha hstep
    have hs' := run_invariant hinv hactions h.committing hrun
    obtain ⟨T, _, _, hw⟩ := hs'.watched
    exact ⟨hw.answersAtomic, queriesReturn hinv (fun s h => h.watched) hs'⟩
  · rintro rfl
    have hinv : ∀ s s' (a : Action ι ρ), Aborting tree s → tree.Permits .aborted a →
        s.Stepped env a s' → Aborting tree s' := fun s s' a h ha hstep => h.step ha hstep
    have hs' := run_invariant hinv hactions h.aborting hrun
    exact ⟨hs'.watched.neverTrue, queriesReturn hinv (fun s h => ⟨_, _, _, h.watched⟩) hs'⟩

/-! ### A tree on two pages -/

section Sample

/-- The parent of 40000 is 11, that of any other transaction 10. -/
def sampleSetting : Setting := ⟨false, fun x => if x = 40000 then 11 else 10⟩

/-- Transaction 10 with the subtransaction 11, which has the subtransaction 40000. -/
def sampleTree : XactTree sampleSetting.subtrans where
  top := 10
  subxids := [11, 40000]
  normal := by simp [transactionIdIsNormal, firstNormalTransactionId]
  top_not_mem := by decide
  parent_mem := by simp [sampleSetting]
  parents := by
    intro x hx
    rcases mem_cons.mp hx with rfl | hx
    · exact ⟨1, rfl⟩
    · rw [mem_singleton.mp hx]
      exact ⟨2, rfl⟩

/-- Nothing is written yet. -/
def sampleSystem : System Unit Bool :=
  ⟨fun _ _ => 0, fun _ => [], fun _ => ⟨⟨0, .inProgress⟩, none⟩, 0, []⟩

/-- One reader asks while the tree is being committed, another one afterwards. -/
def sampleActions : List (Action Unit Bool) :=
  [.setTree () 10 [11, 40000] .committed, .write (), .write (), .call true .didCommit 40000 5,
    .fetch true, .write (), .fetch true, .fetch true, .call false .didCommit 11 5, .fetch false,
    .write (), .fetch false]

theorem didCommit_atomic_sample :
    sampleTree.Running sampleSystem ∧ (∀ a ∈ sampleActions, sampleTree.Permits .committed a) ∧
      ∃ s, sampleSystem.run sampleSetting sampleActions = some s ∧
        s.answers.map Answer.result = [true, true] ∧ sampleTree.AnswersAtomic s ∧
        sampleTree.QueriesReturn .committed s := by
  have hrunning : sampleTree.Running sampleSystem :=
    ⟨by decide, by simp [sampleTree]; decide, by simp [sampleSystem], by
      intro r
      simp only [sampleSystem, XactTree.Mem]
      decide, fun _ => rfl, rfl⟩
  have hactions : ∀ a ∈ sampleActions, sampleTree.Permits .committed a := by
    simp [sampleActions, XactTree.Permits, XactTree.Mem, sampleTree]
    decide
  have hanswers : (sampleSystem.run sampleSetting sampleActions).map
      (fun s => s.answers.map Answer.result) = some [true, true] := by decide +kernel
  obtain ⟨s, hrun, hresults⟩ := Option.map_eq_some_iff.mp hanswers
  exact ⟨hrunning, hactions, s, hrun, hresults,
    (didCommit_atomic sampleTree hrunning hactions hrun).1 rfl⟩

end Sample

end PgCutover.Transam
