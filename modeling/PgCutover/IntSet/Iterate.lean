import PgCutover.IntSet.IntegerSet

/-!
# Iteration over an integer set

An iteration follows the links between the leaves, decodes one item after the other and ends with
the buffer. `Iterating s vs m` says that the values `vs` are still to come and that the pointers
move at most `m` times before the end. The results are about a set at any time of its life: after
any sequence of additions in increasing order and of complete iterations.
-/

namespace PgCutover.IntSet

open Lib List

/-! ### The iterator -/

/-- `intset_begin_iterate`. -/
def intsetBeginIterate (s : IntegerSet) : IntegerSet :=
  { s with
    iterActive := true
    iterNode := s.tree.leftmostLeaf
    iterItemno := 0
    iterValueno := 0
    iterNumValues := 0
    iterValues := .valuesBuf }

/-- The values that `iter_values` points to. -/
def IntegerSet.iterArray (s : IntegerSet) : List UInt64 :=
  match s.iterValues with
  | .null => []
  | .valuesBuf => s.iterValuesBuf
  | .bufferedValues => s.bufferedValues

namespace IntegerSet

/-- The integers of the next item become those that the iteration returns. -/
def decodeItem (s : IntegerSet) (item : LeafItem) : IntegerSet :=
  { s with
    iterItemno := s.iterItemno + 1
    iterValuesBuf := item.first :: simple8bDecode item.codeword item.first
    iterNumValues := (simple8bDecode item.codeword item.first).length + 1
    iterValueno := 0 }

/-- The iteration goes to the next leaf. -/
def stepTo (s : IntegerSet) (next : Option NodeId) : IntegerSet :=
  { s with iterNode := next, iterItemno := 0 }

/-- After the tree, go on with the newly-added values. -/
def stepToBuffer (s : IntegerSet) : IntegerSet :=
  { s with
    iterValues := .bufferedValues
    iterNumValues := s.bufferedValues.length
    iterValueno := 0 }

/-- The iteration passes an integer. -/
def skipValue (s : IntegerSet) : IntegerSet := { s with iterValueno := s.iterValueno + 1 }

/-- The iteration is over. -/
def endIteration (s : IntegerSet) : IntegerSet := { s with iterActive := false }

end IntegerSet

/-- One turn of the loop of `intset_iterate_next`. It is left with the result of the call. -/
def iterateTurn (s : IntegerSet) :
    Option (Except (Except IntSetError (Option UInt64 × IntegerSet)) IntegerSet) :=
  if s.iterValueno < s.iterNumValues then
    match s.iterArray[s.iterValueno]? with
    | none => some (.error (.error .badPointer))
    | some next => some (.error (.ok (some next, s.skipValue)))
  else
    match s.iterNode with
    | some node =>
      match s.tree.nodes[node]? with
      | some (.leaf items next) =>
        match items[s.iterItemno]? with
        | some item => some (.ok (s.decodeItem item))
        | none => some (.ok (s.stepTo next))
      | _ => some (.error (.error .badPointer))
    | none =>
      if s.iterValues = .valuesBuf then some (.ok s.stepToBuffer)
      else some (.error (.ok (none, s.endIteration)))

/-- The next value, or none when there are no more results. -/
def intsetIterateNext (fuel : ℕ) (s : IntegerSet) :
    Except IntSetError (Option UInt64 × IntegerSet) :=
  if s.iterActive then
    match whileLoop (fun _ => true) iterateTurn fuel s with
    | some (.error result) => result
    | _ => .error .outOfFuel
  else .error .assertion

/-- Call `intset_iterate_next` until it returns false. -/
def iterateCalls (fuel : ℕ) : ℕ → IntegerSet → Except IntSetError (List UInt64 × IntegerSet)
  | 0, _ => .error .outOfFuel
  | calls + 1, s =>
    match intsetIterateNext fuel s with
    | .error e => .error e
    | .ok (none, s) => .ok ([], s)
    | .ok (some next, s) =>
      match iterateCalls fuel calls s with
      | .error e => .error e
      | .ok (values, s) => .ok (next :: values, s)

/-- A complete iteration. -/
def iterateAll (fuel : ℕ) (s : IntegerSet) : Except IntSetError (List UInt64 × IntegerSet) :=
  iterateCalls fuel fuel (intsetBeginIterate s)

/-! ### What is still to come -/

/-- The links from a pointer on lead over the items `L`, in `m` steps from item to item and from
leaf to leaf. -/
inductive Walk (nodes : List Node) : Option NodeId → ℕ → List LeafItem → Prop
  | nil : Walk nodes none 0 []
  | cons {id m : ℕ} {items L : List LeafItem} {next : Option NodeId} :
      nodes[id]? = some (.leaf items next) → Walk nodes next m L →
      Walk nodes (some id) (items.length + 1 + m) (items ++ L)

theorem Segment.walk {nodes : List Node} {p : Option NodeId} {L : List LeafItem}
    (h : Segment nodes p none L) : ∃ m, Walk nodes p m L := by
  generalize hq : none = q at h
  induction h with
  | nil => exact ⟨0, hq ▸ .nil⟩
  | cons hid _ ih =>
    obtain ⟨m, hm⟩ := ih hq
    exact ⟨_, .cons hid hm⟩

/-- The position in the chain of leaves: the items `L` follow, with `m` steps. -/
inductive Position (s : IntegerSet) : ℕ → List LeafItem → Prop
  | done : s.iterNode = none → Position s 0 []
  | leaf {id m : ℕ} {items L : List LeafItem} {next : Option NodeId} :
      s.iterNode = some id → s.tree.nodes[id]? = some (.leaf items next) →
      Walk s.tree.nodes next m L →
      Position s (items.length - s.iterItemno + 1 + m) (items.drop s.iterItemno ++ L)

/-- The values `vs` are still to come, after at most `m` moves of the pointers. -/
inductive Iterating (s : IntegerSet) : List UInt64 → ℕ → Prop
  | tree {m : ℕ} {L : List LeafItem} : s.iterValues = .valuesBuf →
      s.iterNumValues ≤ s.iterValuesBuf.length → Position s m L →
      Iterating s ((s.iterValuesBuf.take s.iterNumValues).drop s.iterValueno ++
        (L.flatMap LeafItem.values ++ s.bufferedValues)) (m + 1)
  | buffer : s.iterValues = .bufferedValues → s.iterNumValues = s.bufferedValues.length →
      s.iterNode = none → Iterating s (s.bufferedValues.drop s.iterValueno) 0

/-- Two states in the life of a set that differ in the iterator only. -/
structure SameMembers (s s' : IntegerSet) : Prop where
  tree : s'.tree = s.tree
  bufferedValues : s'.bufferedValues = s.bufferedValues
  numEntries : s'.numEntries = s.numEntries
  highestValue : s'.highestValue = s.highestValue

theorem SameMembers.trans {s s' s'' : IntegerSet} (h : SameMembers s s') (h' : SameMembers s' s'') :
    SameMembers s s'' :=
  ⟨h'.tree.trans h.tree, h'.bufferedValues.trans h.bufferedValues,
    h'.numEntries.trans h.numEntries, h'.highestValue.trans h.highestValue⟩

theorem Represents.of_sameMembers {s s' : IntegerSet} {xs : List UInt64} (h : Represents s xs)
    (hsame : SameMembers s s') : Represents s' xs := by
  refine ⟨h.increasing, ?_, ?_, ?_⟩
  · rw [hsame.tree, hsame.bufferedValues]
    exact h.values
  · rw [hsame.highestValue]
    exact h.highest
  · rw [hsame.numEntries]
    exact h.numEntries

/-- What a call returns when the values `vs` are still to come. -/
inductive Returns (s : IntegerSet) (m : ℕ) : List UInt64 → Option UInt64 × IntegerSet → Prop
  | next {x : UInt64} {vs : List UInt64} {m' : ℕ} {s' : IntegerSet} :
      Iterating s' vs m' → m' ≤ m → s'.iterActive = s.iterActive → SameMembers s s' →
      Returns s m (x :: vs) (some x, s')
  | done {s' : IntegerSet} : s'.iterActive = false → SameMembers s s' → Returns s m [] (none, s')

/-! ### Calls -/

section Calls

variable {s : IntegerSet} {vs : List UInt64} {m : ℕ}

theorem Walk.position {next : Option NodeId} {L : List LeafItem} (h : Walk s.tree.nodes next m L)
    (hnode : s.iterNode = next) (hitemno : s.iterItemno = 0) : Position s m L := by
  cases h with
  | nil => exact .done hnode
  | cons hid hrest =>
    have := Position.leaf hnode hid hrest
    rwa [hitemno, drop_zero, Nat.sub_zero] at this

theorem Position.congr {s' : IntegerSet} {L : List LeafItem} (h : Position s m L)
    (hnode : s'.iterNode = s.iterNode) (hitemno : s'.iterItemno = s.iterItemno)
    (htree : s'.tree = s.tree) : Position s' m L := by
  cases h with
  | done hs => exact .done (hnode.trans hs)
  | leaf hs hid hrest =>
    rw [← htree] at hid hrest
    have := Position.leaf (hnode.trans hs) hid hrest
    rwa [hitemno] at this

/-- A turn of the loop in the tree: the next value of an item, or another step of the walk. -/
theorem iterateTurn_tree {L : List LeafItem} (hvalues : s.iterValues = .valuesBuf)
    (hnum : s.iterNumValues ≤ s.iterValuesBuf.length) (hpos : Position s m L)
    (hvs : vs = (s.iterValuesBuf.take s.iterNumValues).drop s.iterValueno ++
      (L.flatMap LeafItem.values ++ s.bufferedValues)) :
    (∃ r, iterateTurn s = some (.error (.ok r)) ∧ Returns s (m + 1) vs r) ∨
      ∃ s' m', iterateTurn s = some (.ok s') ∧ Iterating s' vs m' ∧ m' < m + 1 ∧
        s'.iterActive = s.iterActive ∧ SameMembers s s' := by
  rw [iterateTurn]
  by_cases hlt : s.iterValueno < s.iterNumValues
  · -- a value of the decoded item
    left
    have hlt' : s.iterValueno < s.iterValuesBuf.length := by omega
    rw [if_pos hlt, IntegerSet.iterArray, hvalues]
    rw [List.getElem?_eq_getElem hlt', hvs,
      drop_eq_getElem_cons (by rw [length_take]; omega), getElem_take]
    have hpos' : Position s.skipValue m L := hpos.congr rfl rfl rfl
    exact ⟨_, rfl, .next (.tree hvalues hnum hpos') (Nat.le_refl _) rfl ⟨rfl, rfl, rfl, rfl⟩⟩
  · right
    have hpending : (s.iterValuesBuf.take s.iterNumValues).drop s.iterValueno = [] :=
      drop_eq_nil_of_le (by rw [length_take]; omega)
    rw [hpending] at hvs
    rw [if_neg hlt]
    cases hpos with
    | done hnode =>
      rw [hnode]
      rw [if_pos hvalues, hvs]
      have hbuffer : Iterating s.stepToBuffer s.bufferedValues 0 := .buffer rfl rfl hnode
      exact ⟨_, 0, rfl, hbuffer, Nat.lt_succ_self _, rfl, ⟨rfl, rfl, rfl, rfl⟩⟩
    | @leaf id m items L next hnode hid hwalk =>
      rw [hnode]
      dsimp only
      rw [hid]
      dsimp only
      cases hitem : items[s.iterItemno]? with
      | some item =>
        obtain ⟨hitemno, hget⟩ := List.getElem?_eq_some_iff.mp hitem
        have hpos : Position (s.decodeItem item) _ (items.drop (s.iterItemno + 1) ++ L) :=
          .leaf hnode hid hwalk
        have hnext := Iterating.tree (s := s.decodeItem item) hvalues (Nat.le_refl _) hpos
        have hdecoded : ((s.decodeItem item).iterValuesBuf.take
            (s.decodeItem item).iterNumValues).drop (s.decodeItem item).iterValueno =
            item.values := take_of_length_le (Nat.le_refl _)
        rw [hdecoded] at hnext
        rw [hvs, drop_eq_getElem_cons hitemno, hget, cons_append, flatMap_cons,
          append_assoc]
        refine ⟨_, _, rfl, hnext, ?_, rfl, ⟨rfl, rfl, rfl, rfl⟩⟩
        dsimp only [IntegerSet.decodeItem]
        omega
      | none =>
        have hend : items.length ≤ s.iterItemno := List.getElem?_eq_none_iff.mp hitem
        rw [drop_eq_nil_of_le hend] at hvs
        have hpos : Position (s.stepTo next) m L := Walk.position hwalk rfl rfl
        have hnext := Iterating.tree (s := s.stepTo next) hvalues hnum hpos
        have hnone : ((s.stepTo next).iterValuesBuf.take (s.stepTo next).iterNumValues).drop
            (s.stepTo next).iterValueno = [] := hpending
        rw [hnone] at hnext
        rw [hvs]
        exact ⟨_, _, rfl, hnext, by omega, rfl, ⟨rfl, rfl, rfl, rfl⟩⟩

/-- A turn of the loop returns the next of the values to come or moves a pointer. -/
theorem iterateTurn_spec (h : Iterating s vs m) :
    (∃ r, iterateTurn s = some (.error (.ok r)) ∧ Returns s m vs r) ∨
      ∃ s' m', iterateTurn s = some (.ok s') ∧ Iterating s' vs m' ∧ m' < m ∧
        s'.iterActive = s.iterActive ∧ SameMembers s s' := by
  cases h with
  | tree hvalues hnum hpos => exact iterateTurn_tree hvalues hnum hpos rfl
  | buffer hvalues hnum hnode =>
    left
    rw [iterateTurn]
    by_cases hlt : s.iterValueno < s.iterNumValues
    · have hlt' : s.iterValueno < s.bufferedValues.length := by omega
      have hnext : Iterating s.skipValue (s.bufferedValues.drop (s.iterValueno + 1)) 0 :=
        .buffer hvalues hnum hnode
      rw [if_pos hlt, IntegerSet.iterArray, hvalues]
      rw [List.getElem?_eq_getElem hlt', drop_eq_getElem_cons hlt']
      exact ⟨_, rfl, .next hnext (Nat.le_refl _) rfl ⟨rfl, rfl, rfl, rfl⟩⟩
    · rw [if_neg hlt, hnode, drop_eq_nil_of_le (by omega)]
      rw [if_neg (by rw [hvalues]; decide)]
      have hdone : Returns s 0 [] (none, s.endIteration) := .done rfl ⟨rfl, rfl, rfl, rfl⟩
      exact ⟨_, rfl, hdone⟩

theorem Returns.of_move {s' : IntegerSet} {m' : ℕ} {r : Option UInt64 × IntegerSet}
    (h : Returns s' m' vs r) (hle : m' ≤ m) (hactive : s'.iterActive = s.iterActive)
    (hsame : SameMembers s s') : Returns s m vs r := by
  cases h with
  | next hnext hm ha hmem =>
    exact .next hnext (Nat.le_trans hm hle) (ha.trans hactive) (hsame.trans hmem)
  | done ha hmem => exact .done ha (hsame.trans hmem)

/-- The loop ends, as the pointers cannot move for ever. -/
theorem iterateLoop_spec (h : Iterating s vs m) :
    ∃ r, Returns s m vs r ∧ ∀ fuel, m < fuel →
      whileLoop (fun _ => true) iterateTurn fuel s = some (.error (.ok r)) := by
  -- by induction on the moves that are left
  induction m using Nat.strong_induction_on generalizing s with
  | h m ih =>
    rcases iterateTurn_spec h with ⟨r, hturn, hr⟩ | ⟨_, m', hturn, hs', hlt, hactive, hsame⟩
    · refine ⟨r, hr, fun fuel hfuel => ?_⟩
      obtain ⟨_, rfl⟩ := Nat.exists_eq_succ_of_ne_zero (Nat.ne_of_gt (Nat.zero_lt_of_lt hfuel))
      rw [whileLoop, if_pos rfl, hturn]
    · obtain ⟨r, hr, hloop⟩ := ih m' hlt hs'
      refine ⟨r, hr.of_move (Nat.le_of_lt hlt) hactive hsame, fun fuel hfuel => ?_⟩
      obtain ⟨fuel, rfl⟩ := Nat.exists_eq_succ_of_ne_zero (Nat.ne_of_gt (Nat.zero_lt_of_lt hfuel))
      rw [whileLoop, hturn]
      exact hloop fuel (by omega)

/-- The calls return the values to come and then false. -/
theorem iterateCalls_spec (h : Iterating s vs m) (hactive : s.iterActive = true) :
    ∃ s', s'.iterActive = false ∧ SameMembers s s' ∧ ∀ fuel calls, m < fuel → vs.length < calls →
      iterateCalls fuel calls s = .ok (vs, s') := by
  induction vs generalizing s m with obtain ⟨r, hr, hloop⟩ := iterateLoop_spec h
  | nil =>
    cases hr with
    | @done s' ha hsame =>
      refine ⟨s', ha, hsame, fun fuel calls hfuel hcalls => ?_⟩
      obtain ⟨_, rfl⟩ := Nat.exists_eq_succ_of_ne_zero (Nat.ne_of_gt hcalls)
      rw [iterateCalls, intsetIterateNext, if_pos hactive, hloop fuel hfuel]
  | cons _ _ ih =>
    cases hr with
    | @next _ _ m' s' hnext hle ha hsame =>
      obtain ⟨s'', hdone, hsame', hcalls'⟩ := ih hnext (ha.trans hactive)
      refine ⟨s'', hdone, hsame.trans hsame', fun fuel calls hfuel hcalls => ?_⟩
      obtain ⟨calls, rfl⟩ := Nat.exists_eq_succ_of_ne_zero (Nat.ne_of_gt (Nat.zero_lt_of_lt hcalls))
      rw [iterateCalls, intsetIterateNext, if_pos hactive, hloop fuel hfuel]
      dsimp only
      rw [hcalls' fuel calls (by omega) (Nat.lt_of_succ_lt_succ hcalls)]

/-- A complete iteration returns the members and leaves the set as it is. -/
theorem Represents.iterateAll {xs : List UInt64} (h : Represents s xs) :
    ∃ s' n, Represents s' xs ∧ s'.iterActive = false ∧
      ∀ fuel, n ≤ fuel → iterateAll fuel s = .ok (xs, s') := by
  obtain ⟨L, htree, hvalues⟩ := h.values
  obtain ⟨m, hpos⟩ : ∃ m, Position (intsetBeginIterate s) m L := by
    cases htree with
    | empty ht => exact ⟨0, .done (by rw [intsetBeginIterate, ht]; rfl)⟩
    | holds _ hholds =>
      obtain ⟨m, hwalk⟩ := hholds.segment.walk
      exact ⟨m, Walk.position hwalk rfl rfl⟩
  have hstart := Iterating.tree (s := intsetBeginIterate s) rfl (Nat.zero_le _) hpos
  have hnone : ((intsetBeginIterate s).iterValuesBuf.take
      (intsetBeginIterate s).iterNumValues).drop (intsetBeginIterate s).iterValueno = [] := rfl
  have hall : L.flatMap LeafItem.values ++ (intsetBeginIterate s).bufferedValues = xs := hvalues
  rw [hnone, nil_append, hall] at hstart
  obtain ⟨s', hdone, hsame, hcalls⟩ := iterateCalls_spec hstart rfl
  have hbegin : SameMembers s (intsetBeginIterate s) := ⟨rfl, rfl, rfl, rfl⟩
  exact ⟨s', m + xs.length + 2, h.of_sameMembers (hbegin.trans hsame), hdone,
    fun fuel hfuel => hcalls fuel fuel (by omega) (by omega)⟩

end Calls

/-! ### The life of a set -/

/-- What is done with a set that is not asked. -/
inductive Op
  | addMember (x : UInt64)
  | iterate
  deriving DecidableEq, Repr

/-- One call of a user of the set. -/
def Op.run (fuel : ℕ) (s : IntegerSet) : Op → Except IntSetError IntegerSet
  | addMember x => intsetAddMember s x
  | iterate => (iterateAll fuel s).map Prod.snd

/-- The calls, up to the first error. -/
def runOps (fuel : ℕ) (s : IntegerSet) : List Op → Except IntSetError IntegerSet
  | [] => .ok s
  | op :: ops =>
    match op.run fuel s with
    | .error e => .error e
    | .ok s => runOps fuel s ops

/-- The integers that the calls add. -/
def addedValues : List Op → List UInt64
  | [] => []
  | .addMember x :: ops => x :: addedValues ops
  | .iterate :: ops => addedValues ops

section Life

variable {s : IntegerSet} {xs : List UInt64}

/-- After each operation the set holds the values that were added up to it. -/
theorem Represents.runOps (ops : List Op) (h : Represents s xs) (hactive : s.iterActive = false)
    (hsorted : (xs ++ addedValues ops).Pairwise (· < ·)) :
    ∃ s' n, Represents s' (xs ++ addedValues ops) ∧ s'.iterActive = false ∧
      ∀ fuel, n ≤ fuel → runOps fuel s ops = .ok s' := by
  induction ops generalizing s xs with
  | nil => exact ⟨s, 0, by rwa [addedValues, append_nil], hactive, fun _ _ => rfl⟩
  | cons op _ ih =>
    cases op with
    | addMember x =>
      rw [addedValues, ← singleton_append, ← append_assoc] at hsorted ⊢
      obtain ⟨hfirst, -, -⟩ := pairwise_append.mp hsorted
      have hx : ∀ y ∈ xs, y < x := fun y hy =>
        (pairwise_append.mp hfirst).2.2 y hy x (mem_singleton_self x)
      obtain ⟨_, hadd, hs', hactive'⟩ := h.addMember hactive hx
      obtain ⟨s'', n, hs'', hactive'', hrun⟩ := ih hs' hactive' hsorted
      refine ⟨s'', n, hs'', hactive'', fun fuel hfuel => ?_⟩
      rw [IntSet.runOps, Op.run, hadd]
      exact hrun fuel hfuel
    | iterate =>
      obtain ⟨_, n, hs', hactive', hiter⟩ := h.iterateAll
      obtain ⟨s'', n', hs'', hactive'', hrun⟩ := ih hs' hactive' hsorted
      refine ⟨s'', max n n', hs'', hactive'', fun fuel hfuel => ?_⟩
      rw [IntSet.runOps, Op.run, hiter fuel (by omega)]
      exact hrun fuel (by omega)

end Life

/-- For every increasing sequence of values, added with any complete iterations in between: no
error branch is taken, a lookup finds exactly the values that were added, an iteration returns
them in order, and the number of entries is right as long as it is less than `2 ^ 64`. -/
theorem integerSet_correct (ops : List Op) (h : (addedValues ops).Pairwise (· < ·)) :
    ∃ s n, (∀ fuel, n ≤ fuel → runOps fuel intsetCreate ops = .ok s) ∧
      (∀ x, intsetIsMember s x = .ok (decide (x ∈ addedValues ops))) ∧
      ((intsetNumEntries s).toNat = (addedValues ops).length ↔ (addedValues ops).length < 2 ^ 64) ∧
      ∃ s', ∀ fuel, n ≤ fuel → iterateAll fuel s = .ok (addedValues ops, s') := by
  obtain ⟨s, n, hs, -, hrun⟩ := represents_create.runOps ops rfl h
  obtain ⟨s', n', -, -, hiter⟩ := hs.iterateAll
  refine ⟨s, max n n', fun fuel hfuel => hrun fuel (by omega), hs.isMember, ?_, s',
    fun fuel hfuel => hiter fuel (by omega)⟩
  rw [intsetNumEntries, hs.numEntries]
  exact ⟨fun heq => heq ▸ Nat.mod_lt _ (by decide), Nat.mod_eq_of_lt⟩

/-- The integers below a number, in increasing order. -/
def integersBelow (n : ℕ) : List UInt64 := (List.range n).map UInt64.ofNat

theorem increasing_integersBelow {n : ℕ} (hn : n ≤ 2 ^ 64) : (integersBelow n).Pairwise (· < ·) := by
  refine pairwise_map.mpr (pairwise_lt_range.imp_of_mem fun ha hb hlt => ?_)
  rw [mem_range] at ha hb
  rwa [UInt64.lt_iff_toNat_lt, UInt64.toNat_ofNat', UInt64.toNat_ofNat',
    Nat.mod_eq_of_lt (ha.trans_le hn), Nat.mod_eq_of_lt (hb.trans_le hn)]

theorem addedValues_map (xs : List UInt64) : addedValues (xs.map .addMember) = xs := by
  induction xs with
  | nil => rfl
  | cons _ _ ih => rw [map_cons, addedValues, ih]

/-- More integers than the buffer has room for, so that some of them are in the tree. -/
theorem integerSet_correct_iterated :
    maxBufferedValues < (integersBelow 1000).length ∧
      ∃ s n, (∀ fuel, n ≤ fuel → runOps fuel intsetCreate
          (.iterate :: (integersBelow 1000).map .addMember) = .ok s) ∧
        (∀ x, intsetIsMember s x = .ok (decide (x ∈ integersBelow 1000))) ∧
        ∃ s', ∀ fuel, n ≤ fuel → iterateAll fuel s = .ok (integersBelow 1000, s') := by
  refine ⟨by simp [integersBelow, maxBufferedValues, maxValuesPerLeafItem], ?_⟩
  have hincreasing := @increasing_integersBelow 1000 (by decide)
  -- the list is not to be computed
  generalize integersBelow 1000 = xs at hincreasing
  have hadded : addedValues (.iterate :: xs.map .addMember) = xs := by
    rw [addedValues, addedValues_map]
  obtain ⟨s, n, hrun, hmember, -, hiter⟩ :=
    integerSet_correct (.iterate :: xs.map .addMember) (hadded.symm ▸ hincreasing)
  rw [hadded] at hiter
  exact ⟨s, n, hrun, fun x => by rw [hmember, hadded], hiter⟩

/-! ### All integers -/

/-- Every 64-bit integer, in increasing order. -/
def allIntegers : List UInt64 := integersBelow (2 ^ 64)

theorem length_allIntegers : allIntegers.length = 2 ^ 64 := by
  rw [allIntegers, integersBelow, length_map, length_range]

theorem increasing_allIntegers : allIntegers.Pairwise (· < ·) :=
  increasing_integersBelow (Nat.le_refl _)

/-- The counter does not have room for the number of all integers: it is back at zero. -/
theorem numEntries_allIntegers :
    ∃ s n, (∀ fuel, n ≤ fuel →
        runOps fuel intsetCreate (allIntegers.map .addMember) = .ok s) ∧
      intsetNumEntries s = 0 ∧ allIntegers.length = 2 ^ 64 := by
  have hadded : addedValues (allIntegers.map .addMember) = allIntegers := addedValues_map _
  obtain ⟨s, n, hs, -, hrun⟩ := represents_create.runOps (allIntegers.map .addMember) rfl
    (by rw [nil_append, hadded]; exact increasing_allIntegers)
  refine ⟨s, n, hrun, ?_, length_allIntegers⟩
  rw [intsetNumEntries, hs.numEntries, nil_append, hadded, length_allIntegers]
  decide

end PgCutover.IntSet
