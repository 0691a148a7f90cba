import PgCutover.IntSet.Tree
import PgCutover.Lib.BinarySearch

/-!
# The chain of leaves

The leaves are linked from left to right. `Segment` is a part of this chain with the items on it,
and `Holds` the invariant of the tree between two items: the rightmost leaf may have room, the
leaves before it are full and hang below the path of `Above`. Adding an item keeps it
(`addItem_spec`).
-/

namespace PgCutover.IntSet

open Function

/-! ### Linked leaves -/

/-- The items on the leaves from a pointer up to another one. -/
inductive Segment (nodes : List Node) : Option NodeId → Option NodeId → List LeafItem → Prop
  | nil (q : Option NodeId) : Segment nodes q q []
  | cons {id : ℕ} {items L : List LeafItem} {next q : Option NodeId} :
      nodes[id]? = some (.leaf items next) → Segment nodes next q L →
      Segment nodes (some id) q (items ++ L)

section Segment

variable {nodes nodes' : List Node} {p : Option NodeId} {last : NodeId} {L items : List LeafItem}

/-- The leaves before another one all have a right sibling. -/
theorem Segment.frame (h : Segment nodes p (some last) L)
    (hnodes : ∀ (id : ℕ) items (next : NodeId), nodes[id]? = some (.leaf items (some next)) →
      nodes'[id]? = some (.leaf items (some next))) : Segment nodes' p (some last) L := by
  generalize hq : some last = q at h
  induction h with
  | nil q => exact .nil q
  | @cons id items L next q hid hrest ih =>
    subst hq
    cases next with
    | none => cases hrest
    | some next => exact .cons (hnodes id items next hid) (ih rfl)

theorem Segment.concat {next : Option NodeId} (h : Segment nodes p (some last) L)
    (hlast : nodes[last]? = some (.leaf items next)) : Segment nodes p next (L ++ items) := by
  generalize hq : some last = q at h
  induction h with
  | nil =>
    subst hq
    simpa using Segment.cons hlast (.nil next)
  | cons hid _ ih =>
    subst hq
    rw [List.append_assoc]
    exact .cons hid (ih rfl)

end Segment

/-! ### Adding items -/

/-- The rightmost leaf has `items`, the leaves before it have `left`. -/
structure Holds (t : Tree) (leaf : NodeId) (left items : List LeafItem) : Prop where
  rightmost : t.rightmostNodes 0 = some leaf
  node : t.nodes[leaf]? = some (.leaf items none)
  size : items.length ≤ 64
  above : ∀ k, (∀ item ∈ items.head?, item.first = k) → Above t 0 leaf k left
  chain : Segment t.nodes t.leftmostLeaf (some leaf) left
  levels : t.numLevels ≤ maxTreeLevels

section Holds

variable {t : Tree} {leaf : NodeId} {left items : List LeafItem} {item : LeafItem}

/-- The links lead over all items. -/
theorem Holds.segment (h : Holds t leaf left items) :
    Segment t.nodes t.leftmostLeaf none (left ++ items) := h.chain.concat h.node

/-- The downlinks lead to all items. -/
theorem Holds.subtree (h : Holds t leaf left items) (hne : items ≠ []) :
    ∃ root, t.root = some root ∧
      Subtree (fun _ => True) t.nodes (t.numLevels - 1) root (left ++ items) := by
  obtain ⟨item, tail, rfl⟩ := List.exists_cons_of_ne_nil hne
  refine (h.above item.first (by simp)).subtree ⟨?_, trivial⟩ rfl
  rw [contents, h.node]
  rfl

/-- An item is put on the rightmost leaf, which has room. The path to the root is there for the
first key that the leaf has then. -/
theorem pushItem_spec (hrightmost : t.rightmostNodes 0 = some leaf)
    (hnode : t.nodes[leaf]? = some (.leaf items none)) (hroom : items.length < 64)
    (habove : ∀ k, (∀ first ∈ (items ++ [item]).head?, first.first = k) → Above t 0 leaf k left)
    (hchain : Segment t.nodes t.leftmostLeaf (some leaf) left)
    (hlevels : t.numLevels ≤ maxTreeLevels) :
    ∃ t', t.pushItem leaf item = .ok (leaf, t') ∧ Holds t' leaf left (items ++ [item]) := by
  have hcall : t.pushItem leaf item =
      .ok (leaf, { t with nodes := t.nodes.set leaf (.leaf (items ++ [item]) none) }) := by
    rw [Tree.pushItem, hnode]
  refine ⟨_, hcall, hrightmost,
    List.getElem?_set_self (List.getElem?_eq_some_iff.mp hnode).1, ?_, ?_, ?_, hlevels⟩
  · rw [List.length_append, List.length_singleton]
    omega
  · intro k hk
    refine (habove k hk).frame rfl rfl (fun _ _ => rfl) ?_
    refine contents_mono (by simp) fun id n hn hkeep => ?_
    refine getElem?_set_of_room hnode (q := fun n => 0 < n.level ∨ n.numItems = 64) ?_ hn hkeep _
    simp only [Node.level, Node.numItems]
    omega
  · refine hchain.frame fun id items' next hid => ?_
    refine getElem?_set_of_room hnode (q := fun n => ∃ items next, n = .leaf items (some next)) ?_
      hid ⟨_, _, rfl⟩ _
    rintro ⟨_, _, heq⟩
    cases heq

/-- The leaf is full, and a new one is linked to its right. -/
theorem Holds.addItem_full (h : Holds t leaf left items) (hfull : items.length = 64)
    (hsmall : left.length + items.length < 64 ^ maxTreeLevels) :
    ∃ t', t.addItem leaf item = .ok (t.nodes.length, t') ∧
      Holds t' t.nodes.length (left ++ items) [item] := by
  obtain ⟨head, tail, hitems⟩ : ∃ head tail, items = head :: tail :=
    List.exists_cons_of_ne_nil (by rintro rfl; cases hfull)
  have hlt := (List.getElem?_eq_some_iff.mp h.node).1
  set new : NodeId := t.nodes.length with hnew
  set nodes := (t.nodes ++ [Node.leaf [] none]).set leaf (.leaf items (some new)) with hnodes
  set linked : Tree := { t with
    nodes := nodes, rightmostNodes := update t.rightmostNodes 0 (some new) } with hlinked
  have hleaf : nodes[leaf]? = some (.leaf items (some new)) :=
    List.getElem?_set_self (by rw [List.length_append]; omega)
  have hnewLeaf : nodes[new]? = some (.leaf [] none) := by
    rw [List.getElem?_set_ne (by omega), List.getElem?_concat_length]
  have hothers : ∀ (id : ℕ) (n : Node), t.nodes[id]? = some n → id ≠ leaf →
      nodes[id]? = some n := by
    intro id n hn hne
    rw [List.getElem?_set_ne hne.symm]
    exact getElem?_append_of_some hn _
  -- the link is not seen on the way down
  have hcontents : ∀ id n, contents t.nodes id = some n → contents nodes id = some n := by
    intro id n hn
    by_cases hid : id = leaf
    · rw [hid, contents, h.node] at hn
      rw [hid, contents, hleaf]
      exact hn
    · obtain ⟨m, hm, rfl⟩ := Option.map_eq_some_iff.mp hn
      rw [contents, hothers id m hm hid, Option.map_some]
  have habove : Above linked 0 leaf head.first left :=
    (h.above head.first (by simp [hitems])).frame rfl rfl
      (fun j hj => update_of_ne (by omega) _ _) fun id n hn _ => hcontents id n hn
  have hfull' : Full linked.nodes 0 leaf items :=
    ⟨hcontents _ _ (by rw [contents, h.node]; rfl), hfull⟩
  obtain ⟨t', hcall, habove', hsame⟩ : ∃ t', Inserted linked 0 new item.first (left ++ items) t' :=
    exists_inserted habove hfull' (by rw [hitems]; rfl) h.levels hsmall
  have hright : linked.rightmostNodes 0 = some new := by
    simp only [hlinked, update_self]
  have hchain : Segment t'.nodes t'.leftmostLeaf (some new) (left ++ items) := by
    rw [hsame.leftmost]
    have hsegment : Segment nodes t.leftmostLeaf (some leaf) left := by
      refine h.chain.frame fun id items' next hid => hothers id _ hid ?_
      rintro rfl
      rw [h.node] at hid
      cases hid
    exact (hsegment.concat hleaf).frame fun id items' next hid =>
      hsame.nodes id _ hid (.inl (Nat.le_refl 0))
  obtain ⟨t'', hpushed, hholds⟩ : ∃ t'', t'.pushItem new item = .ok (new, t'') ∧
      Holds t'' new (left ++ items) [item] :=
    pushItem_spec ((hsame.rightmost 0 (Nat.le_refl 0)).trans hright)
      (hsame.nodes _ _ hnewLeaf (.inl (Nat.le_refl 0))) (by decide)
      (fun k hk => by rw [← hk item rfl]; exact habove') hchain hsame.levels
  refine ⟨t'', ?_, hholds⟩
  rw [Tree.addItem, h.node]
  dsimp only
  rw [if_pos (show items.length ≥ maxLeafItems by rw [hfull]; decide)]
  rw [hcall]
  exact hpushed

/-- Another item is held. -/
theorem Holds.addItem (h : Holds t leaf left items)
    (hsmall : left.length + items.length < 64 ^ maxTreeLevels) :
    ∃ leaf' t' left' items', t.addItem leaf item = .ok (leaf', t') ∧ Holds t' leaf' left' items' ∧
      items' ≠ [] ∧ left' ++ items' = left ++ items ++ [item] := by
  rcases Nat.lt_or_ge items.length 64 with hroom | hfull
  · have habove : ∀ k, (∀ first ∈ (items ++ [item]).head?, first.first = k) →
        Above t 0 leaf k left := by
      intro k hk
      refine h.above k fun first hfirst => hk first ?_
      cases items with
      | nil => cases hfirst
      | cons => exact hfirst
    obtain ⟨t', hcall, hholds⟩ :=
      pushItem_spec h.rightmost h.node hroom habove h.chain h.levels
    refine ⟨leaf, t', left, _, ?_, hholds, by simp, (List.append_assoc _ _ _).symm⟩
    rw [Tree.addItem, h.node]
    dsimp only
    rwa [if_neg (show ¬ items.length ≥ maxLeafItems from Nat.not_le.mpr hroom)]
  · obtain ⟨t', hcall, hholds⟩ := h.addItem_full (Nat.le_antisymm h.size hfull) hsmall
    exact ⟨_, t', _, _, hcall, hholds, by simp, rfl⟩

end Holds

/-!
## The way down

A lookup goes from the root to the leaf that would hold a value, by a binary search in every node,
and ends at the last item that does not begin after the value (`descend_eq`).
-/

open Lib List

/-! ### Searches -/

/-- `intset_binsrch_uint64`. -/
def intsetBinsrchUint64 (item : UInt64) (arr : List UInt64) (nextkey : Bool) : ℕ :=
  searchBound (fun a => if nextkey then item ≥ a else item > a) arr

/-- `intset_binsrch_leaf`. -/
def intsetBinsrchLeaf (item : UInt64) (arr : List LeafItem) (nextkey : Bool) : ℕ :=
  searchBound (fun a => if nextkey then item ≥ a.first else item > a.first) arr

/-- Walk down from a node at a level to the item that may hold a value, if there is one. -/
def descend (nodes : List Node) (x : UInt64) :
    ℕ → NodeId → Except IntSetError (Option LeafItem)
  | 0, node =>
    match nodes[node]? with
    | none => .error .badPointer
    | some (.internal _ _) => .error .assertion
    | some (.leaf items _) =>
      let itemno := intsetBinsrchLeaf x items true
      if itemno = 0 then .ok none
      else
        match items[itemno - 1]? with
        | none => .error .badPointer
        | some item => .ok (some item)
  | level + 1, node =>
    match nodes[node]? with
    | none => .error .badPointer
    | some (.leaf _ _) => .error .assertion
    | some (.internal l entries) =>
      if l = level + 1 then
        let itemno := intsetBinsrchUint64 x (entries.map Prod.fst) true
        if itemno = 0 then .ok none
        else
          match entries[itemno - 1]? with
          | none => .error .badPointer
          | some (_, child) => descend nodes x level child
      else .error .assertion

/-- In increasing keys, the search for the place after a value finds the last key up to it. -/
theorem searchBound_last {α : Type*} {l : List α} {key : α → UInt64}
    (h : l.Pairwise fun a b => key a < key b) (x : UInt64) :
    searchBound (fun a => decide (x ≥ key a)) l = 0 ∧
        (l.filter fun a => key a ≤ x).getLast? = none ∨
      searchBound (fun a => decide (x ≥ key a)) l ≠ 0 ∧
        ∃ a, l[searchBound (fun a => decide (x ≥ key a)) l - 1]? = some a ∧
          (l.filter fun a => key a ≤ x).getLast? = some a := by
  have hmono : l.Pairwise fun a b => decide (x ≥ key b) = true → decide (x ≥ key a) = true := by
    refine h.imp fun hab hb => ?_
    rw [decide_eq_true_iff] at hb ⊢
    exact UInt64.le_of_lt (UInt64.lt_of_lt_of_le hab hb)
  by_cases hzero : searchBound (fun a => decide (x ≥ key a)) l = 0
  · exact .inl ⟨hzero, congrArg List.getLast? (filter_eq_nil_of_searchBound hmono hzero)⟩
  · have hle := (searchBound_spec hmono).1
    have hget := List.getElem?_eq_getElem
      (show searchBound (fun a => decide (x ≥ key a)) l - 1 < l.length by omega)
    exact .inr ⟨hzero, _, hget, (getElem?_searchBound_pred hmono hzero).symm.trans hget⟩

/-! ### The last item that does not begin after a value -/

/-- The items are in the order of their first integers. -/
abbrev Increasing (L : List LeafItem) : Prop := L.Pairwise fun a b => a.first < b.first

def lastItem (L : List LeafItem) (x : UInt64) : Option LeafItem :=
  (L.filter fun item => item.first ≤ x).getLast?

section LastItem

variable {P : ℕ → Prop} {nodes : List Node} {level id : ℕ} {x : UInt64} {L L' : List LeafItem}
  {entries : List (UInt64 × NodeId)} {Ls : List (List LeafItem)}

theorem lastItem_append_of_isSome (h : (lastItem L' x).isSome) :
    lastItem (L ++ L') x = lastItem L' x := by
  rw [lastItem, filter_append, List.getLast?_append, ← lastItem, Option.or_of_isSome h]

theorem filter_eq_nil_of_lt {key : UInt64} (hL : Increasing L) (hkey : FirstKey L key)
    (hlt : x < key) : (L.filter fun item => item.first ≤ x) = [] := by
  cases L with
  | nil => rfl
  | cons head =>
    have hhead : head.first = key := Option.some.inj hkey
    refine filter_eq_nil_iff.mpr fun item hitem => ?_
    rw [decide_eq_true_iff, UInt64.not_le]
    rcases mem_cons.mp hitem with rfl | hitem
    · rwa [hhead]
    · exact UInt64.lt_trans (by rwa [hhead]) ((pairwise_cons.mp hL).1 item hitem)

theorem lastItem_isSome {key : UInt64} (hkey : FirstKey L key) (hle : key ≤ x) :
    (lastItem L x).isSome := by
  cases L with
  | nil => cases hkey
  | cons head =>
    have hhead : head.first = key := Option.some.inj hkey
    rw [lastItem, filter_cons_of_pos (by rw [hhead]; simpa using hle)]
    simp

/-- The key of a downlink is the first value below it. -/
theorem Children.exists_first (h : Children P nodes level entries Ls) {e : UInt64 × NodeId}
    (he : e ∈ entries) : ∃ item ∈ Ls.flatten, item.first = e.1 := by
  induction h with
  | nil => cases he
  | @cons e' L entries Ls he' _ ih =>
    rcases mem_cons.mp he with rfl | he
    · obtain ⟨item, hitem, hfirst⟩ := Option.map_eq_some_iff.mp he'.2
      exact ⟨item, mem_append_left _ (mem_of_mem_head? hitem), hfirst⟩
    · obtain ⟨item, hitem, hfirst⟩ := ih he
      exact ⟨item, mem_append_right _ hitem, hfirst⟩

theorem Children.increasing (h : Children P nodes level entries Ls) (hL : Increasing Ls.flatten) :
    entries.Pairwise fun a b => a.1 < b.1 := by
  induction h with
  | nil => exact .nil
  | @cons e L entries Ls he hrest ih =>
    obtain ⟨-, hflat, hcross⟩ := pairwise_append.mp hL
    refine pairwise_cons.mpr ⟨fun e' he' => ?_, ih hflat⟩
    obtain ⟨head, hhead, hfirst⟩ := Option.map_eq_some_iff.mp he.2
    obtain ⟨item, hitem, hfirst'⟩ := Children.exists_first hrest he'
    rw [← hfirst, ← hfirst']
    exact hcross head (mem_of_mem_head? hhead) item hitem

theorem Children.lastItem_eq (h : Children P nodes level entries Ls)
    (hL : Increasing Ls.flatten) :
    match (entries.filter fun e => e.1 ≤ x).getLast? with
    | none => lastItem Ls.flatten x = none
    | some e => ∃ L, Subtree P nodes level e.2 L ∧ Increasing L ∧
        lastItem Ls.flatten x = lastItem L x ∧ (lastItem L x).isSome := by
  induction h with
  | nil => rfl
  | @cons e L entries Ls he hrest ih =>
    have hkeys := Children.increasing (.cons he hrest) hL
    have hfirst : FirstKey (L ++ Ls.flatten) e.1 := by
      rw [← flatten_cons, FirstKey, Children.firstKey (.cons he hrest) rfl]
      rfl
    rw [flatten_cons] at hL ⊢
    obtain ⟨hL', hflat, -⟩ := pairwise_append.mp hL
    by_cases hle : e.1 ≤ x
    · rw [filter_cons_of_pos (by simpa using hle), List.getLast?_cons]
      have hrest := ih hflat
      cases hlast : (entries.filter fun e => e.1 ≤ x).getLast? with rw [hlast] at hrest
      | none =>
        refine ⟨L, he.1, hL', ?_, lastItem_isSome he.2 hle⟩
        rw [lastItem, filter_append, List.getLast?_append, ← lastItem, ← lastItem, hrest,
          Option.none_or]
      | some =>
        obtain ⟨L', hsub, hinc, heq, hsome⟩ := hrest
        exact ⟨L', hsub, hinc, by rw [lastItem_append_of_isSome (by rwa [heq]), heq], hsome⟩
    · have hlt : x < e.1 := UInt64.not_le.mp hle
      have hnone : ((e :: entries).filter fun e => e.1 ≤ x) = [] := by
        refine filter_eq_nil_iff.mpr fun e' he' => ?_
        rw [decide_eq_true_iff, UInt64.not_le]
        rcases mem_cons.mp he' with rfl | he'
        · exact hlt
        · exact UInt64.lt_trans hlt ((pairwise_cons.mp hkeys).1 e' he')
      rw [hnone]
      change lastItem _ _ = none
      rw [lastItem, filter_eq_nil_of_lt hL hfirst hlt, List.getLast?_nil]

/-- The walk ends at the last item that does not begin after the value. -/
theorem descend_eq (h : Subtree P nodes level id L) (hL : Increasing L) :
    descend nodes x level id = .ok (lastItem L x) := by
  induction level generalizing id L with
  | zero =>
    obtain ⟨n, hn, hleaf⟩ := Option.map_eq_some_iff.mp h.1
    cases n with
    | internal => cases hleaf
    | leaf =>
      cases hleaf
      rw [descend, hn, lastItem]
      simp only [intsetBinsrchLeaf, if_true]
      rcases searchBound_last hL x with ⟨hzero, hlast⟩ | ⟨hpos, _, hget, hlast⟩
      · rw [if_pos hzero, hlast]
      · rw [if_neg hpos, hget, hlast]
  | succ _ ih =>
    obtain ⟨_, _, hnode, -, hchildren, rfl⟩ := h
    have hbelow := Children.lastItem_eq hchildren hL (x := x)
    rw [descend, contents_internal.mp hnode]
    simp only [intsetBinsrchUint64, if_true, searchBound_map]
    rcases searchBound_last (Children.increasing hchildren hL) x with
      ⟨hzero, hlast⟩ | ⟨hpos, e, hget, hlast⟩
    all_goals rw [hlast] at hbelow
    · rw [if_pos hzero, hbelow]
    · obtain ⟨L, hsub, hinc, heq, -⟩ := hbelow
      rw [if_neg hpos, hget, heq]
      exact ih hsub hinc

/-! ### The item that can hold a value -/

theorem mem_values_first (item : LeafItem) : item.first ∈ item.values := mem_cons_self

theorem first_le_of_mem {item : LeafItem} (h : item.values.Pairwise (· < ·))
    (hx : x ∈ item.values) : item.first ≤ x := by
  rcases mem_cons.mp hx with rfl | hx
  · exact UInt64.le_refl _
  · exact UInt64.le_of_lt ((pairwise_cons.mp h).1 x hx)

theorem lastItem_spec {item : LeafItem} (h : lastItem L x = some item) :
    item ∈ L ∧ item.first ≤ x := by
  have := mem_filter.mp (mem_of_getLast? h)
  exact ⟨this.1, by simpa using this.2⟩

/-- In items with increasing values, a value is in the last item that does not begin after it, or
nowhere. -/
theorem mem_flatMap_values_iff (hL : (L.flatMap LeafItem.values).Pairwise (· < ·)) :
    x ∈ L.flatMap LeafItem.values ↔ ∃ item, lastItem L x = some item ∧ x ∈ item.values := by
  induction L with
  | nil => simp [lastItem]
  | cons head tail ih =>
    rw [flatMap_cons] at hL ⊢
    obtain ⟨hhead, htail, hcross⟩ := pairwise_append.mp hL
    rw [mem_append, ih htail]
    cases hlast : lastItem tail x with
    | some item =>
      -- everything in the first item is below the item that was found
      have hnot : x ∉ head.values := by
        intro hx
        obtain ⟨hmem, hle⟩ := lastItem_spec hlast
        have := hcross x hx item.first (mem_flatMap.mpr ⟨item, hmem, mem_values_first item⟩)
        exact UInt64.lt_irrefl _ (UInt64.lt_of_lt_of_le this hle)
      have hcons : lastItem (head :: tail) x = some item := by
        rw [← hlast]
        exact lastItem_append_of_isSome (L := [head]) (by rw [hlast]; rfl)
      rw [hcons]
      simp [hnot]
    | none =>
      have hcons : lastItem (head :: tail) x = if head.first ≤ x then some head else none := by
        have hnil : (tail.filter fun item => item.first ≤ x) = [] :=
          List.getLast?_eq_none_iff.mp hlast
        rw [lastItem, filter_cons, hnil]
        split_ifs with h h <;> simp_all
      rw [hcons]
      split_ifs with hle
      · simp
      · have hnot : x ∉ head.values := fun hx => hle (first_le_of_mem hhead hx)
        simp [hnot]

theorem increasing_of_values (hL : (L.flatMap LeafItem.values).Pairwise (· < ·)) :
    Increasing L := by
  induction L with
  | nil => exact .nil
  | cons head _ ih =>
    obtain ⟨-, htail, hcross⟩ := pairwise_append.mp hL
    refine pairwise_cons.mpr ⟨fun item hitem => ?_, ih htail⟩
    exact hcross _ (mem_values_first head) _
      (mem_flatMap.mpr ⟨item, hitem, mem_values_first item⟩)

end LastItem

/-!
## Integer sets

New members go to a buffer, from which they are packed into items of the tree when it is full.
-/

/-! ### The set -/

/-- The most integers that one item packs. -/
def maxValuesPerLeafItem : ℕ := 241

/-- `MAX_BUFFERED_VALUES`. -/
def maxBufferedValues : ℕ := maxValuesPerLeafItem * 2

/-- The array that `iter_values` points to. -/
inductive IterValues
  | null
  | valuesBuf
  | bufferedValues
  deriving DecidableEq, Repr

/-- The set: the tree, the integers that are not yet in it, and the iteration. -/
structure IntegerSet where
  numEntries : UInt64
  highestValue : UInt64
  tree : Tree
  bufferedValues : List UInt64
  iterActive : Bool
  iterValues : IterValues
  iterNumValues : ℕ
  iterValueno : ℕ
  iterNode : Option NodeId
  iterItemno : ℕ
  iterValuesBuf : List UInt64

/-- `intset_create`. -/
def intsetCreate : IntegerSet :=
  ⟨0, 0, Tree.empty, [], false, .null, 0, 0, none, 0, []⟩

/-- `intset_num_entries`. -/
def intsetNumEntries (s : IntegerSet) : UInt64 := s.numEntries

/-- Pack values into items of the tree, as long as there are enough to fill any item. -/
def packValues (t : Tree) (leaf : NodeId) (values : List UInt64) :
    Except IntSetError (Tree × List UInt64) :=
  match values with
  | [] => .ok (t, [])
  | first :: rest =>
    if (first :: rest).length ≥ maxValuesPerLeafItem then
      match simple8bEncode rest first with
      | .error e => .error e
      | .ok (codeword, numEncoded) =>
        match t.addItem leaf ⟨first, codeword⟩ with
        | .error e => .error e
        | .ok (leaf, t) => packValues t leaf (rest.drop numEncoded)
    else .ok (t, first :: rest)
termination_by values.length
decreasing_by
  rw [length_drop, length_cons]
  omega

/-- The first leaf, which is also the root. -/
def Tree.firstLeaf (t : Tree) : Tree :=
  { t with
    nodes := t.nodes ++ [.leaf [] none]
    root := some t.nodes.length
    leftmostLeaf := some t.nodes.length
    rightmostNodes := Function.update t.rightmostNodes 0 (some t.nodes.length)
    numLevels := 1 }

/-- `intset_flush_buffered_values`. -/
def intsetFlushBufferedValues (s : IntegerSet) : Except IntSetError IntegerSet :=
  let packed :=
    match s.tree.rightmostNodes 0 with
    | some leaf => packValues s.tree leaf s.bufferedValues
    | none => packValues s.tree.firstLeaf s.tree.nodes.length s.bufferedValues
  match packed with
  | .error e => .error e
  | .ok (tree, remaining) => .ok { s with tree := tree, bufferedValues := remaining }

/-- The end of `intset_add_member`: the value goes to the buffer. -/
def appendBuffered (s : IntegerSet) (x : UInt64) : IntegerSet :=
  { s with
    bufferedValues := s.bufferedValues ++ [x]
    numEntries := s.numEntries + 1
    highestValue := x }

/-- `intset_add_member`. -/
def intsetAddMember (s : IntegerSet) (x : UInt64) : Except IntSetError IntegerSet :=
  if s.iterActive then .error .iterationInProgress
  else if x ≤ s.highestValue ∧ s.numEntries > 0 then .error .outOfOrder
  else if s.bufferedValues.length ≥ maxBufferedValues then
    match intsetFlushBufferedValues s with
    | .error e => .error e
    | .ok s =>
      if s.bufferedValues.length < maxBufferedValues then .ok (appendBuffered s x)
      else .error .assertion
  else .ok (appendBuffered s x)

/-- The part of `intset_is_member` that looks into the tree. -/
def isMemberOfTree (t : Tree) (x : UInt64) : Except IntSetError Bool :=
  match t.root with
  | none => .ok false
  | some root =>
    match descend t.nodes x (t.numLevels - 1) root with
    | .error e => .error e
    | .ok none => .ok false
    | .ok (some item) =>
      if item.first = x then .ok true
      else if x > item.first then .ok (simple8bContains item.codeword x item.first)
      else .error .assertion

/-- `intset_is_member`. -/
def intsetIsMember (s : IntegerSet) (x : UInt64) : Except IntSetError Bool :=
  match s.bufferedValues with
  | [] => isMemberOfTree s.tree x
  | first :: rest =>
    if x ≥ first then
      -- past the last value there is nothing to compare with
      .ok ((first :: rest)[intsetBinsrchUint64 x (first :: rest) false]? == some x)
    else isMemberOfTree s.tree x

/-! ### What a set holds -/

/-- The tree holds the items, or is empty. -/
inductive TreeHolds (t : Tree) : List LeafItem → Prop
  | empty : t = Tree.empty → TreeHolds t []
  | holds {leaf : NodeId} {left items : List LeafItem} :
      items ≠ [] → Holds t leaf left items → TreeHolds t (left ++ items)

/-- The set holds the members `xs`. -/
structure Represents (s : IntegerSet) (xs : List UInt64) : Prop where
  increasing : xs.Pairwise (· < ·)
  values : ∃ L, TreeHolds s.tree L ∧ L.flatMap LeafItem.values ++ s.bufferedValues = xs
  highest : ∀ last ∈ xs.getLast?, s.highestValue = last
  numEntries : s.numEntries = UInt64.ofNat xs.length

theorem represents_create : Represents intsetCreate [] :=
  ⟨.nil, ⟨[], .empty rfl, rfl⟩, by simp, rfl⟩

/-! ### Lookups -/

section Lookup

variable {t : Tree} {L : List LeafItem} {s : IntegerSet} {xs : List UInt64}

theorem isMemberOfTree_eq (h : TreeHolds t L)
    (hL : (L.flatMap LeafItem.values).Pairwise (· < ·)) (x : UInt64) :
    isMemberOfTree t x = .ok (decide (x ∈ L.flatMap LeafItem.values)) := by
  cases h with
  | empty ht => rw [isMemberOfTree, ht]; rfl
  | @holds leaf left items hne h =>
    obtain ⟨_, hroot, hsub⟩ := h.subtree hne
    rw [isMemberOfTree, hroot]
    dsimp only
    rw [descend_eq hsub (increasing_of_values hL)]
    have hiff := mem_flatMap_values_iff (x := x) hL
    cases hlast : lastItem (left ++ items) x with
    | none =>
      have hnot : x ∉ (left ++ items).flatMap LeafItem.values := by
        rw [hiff, hlast]
        simp
      rw [decide_eq_false hnot]
    | some item =>
      obtain ⟨hitem, hle⟩ := lastItem_spec hlast
      have hsorted : item.values.Pairwise (· < ·) :=
        (pairwise_flatMap.mp hL).1 item hitem
      have hmem : x ∈ (left ++ items).flatMap LeafItem.values ↔ x ∈ item.values := by
        rw [hiff, hlast]
        simp
      simp only [hmem, LeafItem.values]
      by_cases hfirst : item.first = x
      · simp [hfirst]
      · have hgt : x > item.first := UInt64.lt_of_le_of_ne hle hfirst
        have hcontains := simple8bContains_iff hsorted (Ne.symm hfirst)
        rw [if_neg hfirst, if_pos hgt]
        simp [Ne.symm hfirst, ← hcontains]

/-- In increasing values, the search for a value ends at it if it is there. -/
theorem getElem?_binsrch (h : xs.Pairwise (· < ·)) (x : UInt64) :
    (xs[intsetBinsrchUint64 x xs false]? == some x) = decide (x ∈ xs) := by
  have hmono : xs.Pairwise fun a b => decide (x > b) = true → decide (x > a) = true := by
    refine h.imp fun hab hb => ?_
    rw [decide_eq_true_iff] at hb ⊢
    exact UInt64.lt_trans hab hb
  obtain ⟨-, hbefore, hafter⟩ := searchBound_spec hmono
  simp only [intsetBinsrchUint64, Bool.false_eq_true, if_false]
  set r := searchBound (fun a => decide (x > a)) xs
  rw [Bool.eq_iff_iff, beq_iff_eq, decide_eq_true_iff]
  refine ⟨mem_of_getElem?, fun hx => ?_⟩
  rw [← take_append_drop r xs, mem_append] at hx
  rcases hx with hx | hx
  · exact absurd (hbefore x hx) (by simp)
  · -- nothing after the bound is below the value, so the value is the first one there
    rw [← List.head?_drop]
    have hdrop : (xs.drop r).Pairwise (· < ·) := h.sublist (drop_sublist r xs)
    cases htail : xs.drop r with
    | nil => simp [htail] at hx
    | cons y =>
      rw [htail] at hx hdrop hafter
      rcases mem_cons.mp hx with rfl | hx
      · rfl
      · have hlt := (pairwise_cons.mp hdrop).1 x hx
        exact absurd (hafter y mem_cons_self) (by simpa using hlt)

theorem Represents.isMember (h : Represents s xs) (x : UInt64) :
    intsetIsMember s x = .ok (decide (x ∈ xs)) := by
  obtain ⟨L, htree, rfl⟩ := h.values
  obtain ⟨hL, hbuffer, hcross⟩ := pairwise_append.mp h.increasing
  rw [intsetIsMember]
  cases hbuf : s.bufferedValues with
  | nil => simp [isMemberOfTree_eq htree hL]
  | cons first rest =>
    rw [hbuf] at hbuffer hcross
    dsimp only
    split_ifs with hge
    · rw [getElem?_binsrch hbuffer]
      have hnot : x ∉ L.flatMap LeafItem.values := fun hx =>
        UInt64.lt_irrefl _ (UInt64.lt_of_lt_of_le (hcross x hx first mem_cons_self) hge)
      simp [hnot]
    · rw [isMemberOfTree_eq htree hL]
      have hnot : x ∉ first :: rest := by
        intro hx
        rcases mem_cons.mp hx with rfl | hx
        · exact hge (UInt64.le_refl _)
        · exact hge (UInt64.le_of_lt ((pairwise_cons.mp hbuffer).1 x hx))
      simp [hnot]

end Lookup

/-! ### Additions -/

section Add

variable {t : Tree} {leaf : NodeId} {L left items : List LeafItem} {s : IntegerSet}
  {values xs : List UInt64}

theorem length_le_of_increasing (h : xs.Pairwise (· < ·)) : xs.length ≤ 2 ^ 64 := by
  have hnodup : (xs.map UInt64.toNat).Nodup :=
    pairwise_map.mpr (h.imp fun hab => by rw [UInt64.lt_iff_toNat_lt] at hab; omega)
  have hsub : xs.map UInt64.toNat ⊆ List.range (2 ^ 64) := by
    intro n hn
    obtain ⟨x, -, rfl⟩ := mem_map.mp hn
    exact mem_range.mpr x.toNat_lt
  have := (hnodup.subperm hsub).length_le
  rwa [length_map, length_range] at this

theorem length_le_length_flatMap (L : List LeafItem) :
    L.length ≤ (L.flatMap LeafItem.values).length := by
  induction L with
  | nil => exact Nat.le_refl _
  | cons _ _ ih =>
    rw [flatMap_cons, length_append, LeafItem.values, length_cons, length_cons]
    omega

theorem Holds.small (h : ((left ++ items).flatMap LeafItem.values).Pairwise (· < ·)) :
    left.length + items.length < 64 ^ maxTreeLevels := by
  have hle := length_le_length_flatMap (left ++ items)
  have hlt : (2 : ℕ) ^ 64 < 64 ^ maxTreeLevels := by decide
  have := length_le_of_increasing h
  rw [length_append] at hle
  omega

/-- Packing moves values from the buffer to the tree, until too few are left for another item. -/
theorem packValues_spec (h : Holds t leaf left items)
    (hsorted : ((left ++ items).flatMap LeafItem.values ++ values).Pairwise (· < ·)) :
    ∃ t' rest leaf' left' items', packValues t leaf values = .ok (t', rest) ∧
      Holds t' leaf' left' items' ∧
      (left' ++ items').flatMap LeafItem.values ++ rest =
        (left ++ items).flatMap LeafItem.values ++ values ∧
      rest.length < maxValuesPerLeafItem ∧
      (items ≠ [] ∨ maxValuesPerLeafItem ≤ values.length → items' ≠ []) := by
  -- by induction on the number of values in the buffer
  induction hlen : values.length using Nat.strong_induction_on
    generalizing t leaf left items values with
  | h n ih =>
    cases values with
    | nil =>
      exact ⟨t, [], leaf, left, items, by rw [packValues], h, rfl, by decide,
        fun hne => hne.resolve_right (by rw [← hlen]; decide)⟩
    | cons first rest =>
      rw [packValues]
      split_ifs with hmany
      · obtain ⟨htree, hvalues, -⟩ := pairwise_append.mp hsorted
        have hmany' : 240 ≤ rest.length := Nat.le_of_succ_le_succ hmany
        obtain ⟨codeword, m, hencode, hdecode, -⟩ := simple8bEncode_spec hmany' hvalues
        obtain ⟨leaf', t', left', items', hadd, hholds, hne, hitems⟩ :
            ∃ leaf' t' left' items', t.addItem leaf ⟨first, codeword⟩ = .ok (leaf', t') ∧
              Holds t' leaf' left' items' ∧ items' ≠ [] ∧
              left' ++ items' = left ++ items ++ [⟨first, codeword⟩] :=
          h.addItem (Holds.small htree)
        have hsame : (left' ++ items').flatMap LeafItem.values ++ rest.drop m =
            (left ++ items).flatMap LeafItem.values ++ first :: rest := by
          rw [hitems, flatMap_append, flatMap_singleton, LeafItem.values, hdecode,
            append_assoc, cons_append, take_append_drop]
        rw [hencode]
        dsimp only
        rw [hadd]
        have hshort : (rest.drop m).length < n := by
          rw [← hlen, length_drop, length_cons]
          omega
        obtain ⟨t'', rest', leaf'', left'', items'', hpack, hholds', hrest, hfew, hne'⟩ :=
          ih _ hshort hholds (by rwa [hsame]) rfl
        exact ⟨t'', rest', leaf'', left'', items'', hpack, hholds', hrest.trans hsame, hfew,
          fun _ => hne' (.inl hne)⟩
      · exact ⟨t, _, leaf, left, items, rfl, h, rfl, Nat.lt_of_not_le hmany,
          fun hne => hne.resolve_right (hlen ▸ hmany)⟩

theorem holds_firstLeaf : Holds Tree.empty.firstLeaf 0 [] [] where
  rightmost := rfl
  node := rfl
  size := Nat.zero_le _
  above _ _ := .root rfl rfl
  chain := .nil _
  levels := by decide

/-- A flush of the full buffer leaves the members as they are and makes room. -/
theorem flush_spec (htree : TreeHolds s.tree L)
    (hsorted : (L.flatMap LeafItem.values ++ s.bufferedValues).Pairwise (· < ·))
    (hfull : maxBufferedValues ≤ s.bufferedValues.length) :
    ∃ t rest L', intsetFlushBufferedValues s = .ok { s with tree := t, bufferedValues := rest } ∧
      TreeHolds t L' ∧
      L'.flatMap LeafItem.values ++ rest = L.flatMap LeafItem.values ++ s.bufferedValues ∧
      rest.length < maxBufferedValues := by
  have hmany : maxValuesPerLeafItem ≤ s.bufferedValues.length :=
    Nat.le_trans (by decide) hfull
  cases htree with
  | empty ht =>
    obtain ⟨t, rest, _, _, _, hpack, hholds, hsame, hfew, hne⟩ :=
      packValues_spec holds_firstLeaf hsorted
    refine ⟨t, rest, _, ?_, .holds (hne (.inr hmany)) hholds, hsame, Nat.lt_trans hfew (by decide)⟩
    have hnone : s.tree.rightmostNodes 0 = none := by rw [ht]; rfl
    have hcall : packValues s.tree.firstLeaf s.tree.nodes.length s.bufferedValues =
        .ok (t, rest) := by rw [ht]; exact hpack
    rw [intsetFlushBufferedValues, hnone]
    rw [hcall]
  | holds _ h =>
    obtain ⟨t, rest, _, _, _, hpack, hholds, hsame, hfew, hne⟩ :=
      packValues_spec h hsorted
    refine ⟨t, rest, _, ?_, .holds (hne (.inr hmany)) hholds, hsame, Nat.lt_trans hfew (by decide)⟩
    rw [intsetFlushBufferedValues, h.rightmost]
    dsimp only
    rw [hpack]

/-- A value that is larger than all members is added to them. -/
theorem Represents.addMember (h : Represents s xs) (hactive : s.iterActive = false) {x : UInt64}
    (hx : ∀ y ∈ xs, y < x) :
    ∃ s', intsetAddMember s x = .ok s' ∧ Represents s' (xs ++ [x]) ∧ s'.iterActive = false := by
  have horder : ¬ (x ≤ s.highestValue ∧ s.numEntries > 0) := by
    rintro ⟨hle, hpos⟩
    cases hlast : xs.getLast? with
    | none =>
      rw [List.getLast?_eq_none_iff] at hlast
      rw [h.numEntries, hlast] at hpos
      exact absurd hpos (by decide)
    | some last =>
      rw [h.highest last hlast] at hle
      exact UInt64.lt_irrefl _ (UInt64.lt_of_lt_of_le (hx last (mem_of_getLast? hlast)) hle)
  have hincreasing : (xs ++ [x]).Pairwise (· < ·) :=
    pairwise_append.mpr ⟨h.increasing, pairwise_singleton _ _, by simpa using hx⟩
  have hnum : s.numEntries + 1 = UInt64.ofNat (xs ++ [x]).length := by
    rw [h.numEntries, length_append, UInt64.ofNat_add]
    rfl
  obtain ⟨L, htree, hvalues⟩ := h.values
  rw [intsetAddMember, if_neg (by simp [hactive]), if_neg horder]
  split_ifs with hfull
  · obtain ⟨t, _, L', hflush, htree', hsame, hroom⟩ :=
      flush_spec htree (by rw [hvalues]; exact h.increasing) hfull
    rw [hflush]
    dsimp only
    rw [if_pos hroom]
    refine ⟨_, rfl, ⟨hincreasing, ⟨L', htree', ?_⟩, by simp [appendBuffered], hnum⟩, hactive⟩
    rw [← hvalues, ← hsame, appendBuffered, append_assoc]
  · refine ⟨_, rfl, ⟨hincreasing, ⟨L, htree, ?_⟩, by simp [appendBuffered], hnum⟩, hactive⟩
    rw [← hvalues, appendBuffered, append_assoc]

end Add

end PgCutover.IntSet
