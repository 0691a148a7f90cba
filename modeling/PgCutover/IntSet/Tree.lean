import PgCutover.IntSet.Simple8b

/-!
# The B-tree of leaf items

Items are only added at the right end. `updateUpper` inserts the downlink of a new node into its
parent and, if the parent is full, makes a new parent and goes on one level up. The invariant is
a statement about the path from the rightmost leaf to the root (`Above`): each node on it may
have room, everything to the left of it hangs in full subtrees. So a write to a node with room
leaves every subtree alone (`Subtree.frame`, `Above.frame`), and a tree that cannot be expanded
any more would hold `64 ^ 11` items.
-/

namespace PgCutover.IntSet

open Function List

/-! ### Nodes -/

/-- Nodes are known by their index. -/
abbrev NodeId := ℕ

/-- `MAX_INTERNAL_ITEMS`. -/
def maxInternalItems : ℕ := 64

/-- `MAX_LEAF_ITEMS`. -/
def maxLeafItems : ℕ := 64

/-- `MAX_TREE_LEVELS`. -/
def maxTreeLevels : ℕ := 11

/-- An integer and a codeword with those that follow it. -/
structure LeafItem where
  first : UInt64
  codeword : UInt64
  deriving DecidableEq, Repr

/-- The integers that the item packs. -/
def LeafItem.values (item : LeafItem) : List UInt64 :=
  item.first :: simple8bDecode item.codeword item.first

/-- A node with the entries in use. The key values and downlinks of an internal node are paired. -/
inductive Node
  | leaf (items : List LeafItem) (next : Option NodeId)
  | internal (level : ℕ) (entries : List (UInt64 × NodeId))
  deriving DecidableEq, Repr

namespace Node

def level : Node → ℕ
  | leaf _ _ => 0
  | internal level _ => level

def numItems : Node → ℕ
  | leaf items _ => items.length
  | internal _ entries => entries.length

/-- The first value on a page. -/
def firstKey : Node → Option UInt64
  | leaf items _ => items.head?.map LeafItem.first
  | internal _ entries => entries.head?.map Prod.fst

/-- A node without the link to its right sibling. -/
def unlinked : Node → Node
  | leaf items _ => leaf items none
  | internal level entries => internal level entries

@[simp] theorem level_unlinked (n : Node) : n.unlinked.level = n.level := by cases n <;> rfl

@[simp] theorem numItems_unlinked (n : Node) : n.unlinked.numItems = n.numItems := by
  cases n <;> rfl

end Node

/-- The nodes that were allocated, with their position as the pointer, and the entry points. -/
structure Tree where
  nodes : List Node
  numLevels : ℕ
  root : Option NodeId
  rightmostNodes : ℕ → Option NodeId
  leftmostLeaf : Option NodeId

namespace Tree

def empty : Tree := ⟨[], 0, none, fun _ => none, none⟩

/-- Create a new root node, if necessary. -/
def expand (t : Tree) (level : ℕ) : Except IntSetError Tree :=
  if level ≥ t.numLevels then
    if t.numLevels = maxTreeLevels then .error .maximumLevels
    else
      match t.root with
      | none => .error .badPointer
      | some oldroot =>
        match (t.nodes[oldroot]?).bind Node.firstKey with
        | none => .error .badPointer
        | some downlinkKey =>
          .ok { t with
            nodes := t.nodes ++ [.internal level [(downlinkKey, oldroot)]]
            numLevels := t.numLevels + 1
            root := some t.nodes.length
            rightmostNodes := update t.rightmostNodes level (some t.nodes.length) }
  else .ok t

/-- Insert a downlink into the parent node, after creating a new node. -/
def updateUpper (t : Tree) (level : ℕ) (child : NodeId) (childKey : UInt64) :
    Except IntSetError Tree :=
  match t.expand level with
  | .error e => .error e
  | .ok t =>
    -- `rightmost_nodes` has an element for each level that a tree may have
    if level < maxTreeLevels then
      match (t.rightmostNodes level).bind fun parent =>
          (t.nodes[parent]?).map fun n => (parent, n) with
      | some (parent, .internal l entries) =>
        if entries.length < maxInternalItems then
          .ok { t with nodes := t.nodes.set parent (.internal l (entries ++ [(childKey, child)])) }
        else
          updateUpper
            { t with
              nodes := t.nodes ++ [.internal level [(childKey, child)]]
              rightmostNodes := update t.rightmostNodes level (some t.nodes.length) }
            (level + 1) t.nodes.length childKey
      | _ => .error .badPointer
    else .error .badPointer
termination_by maxTreeLevels - level

/-- `leaf->items[leaf->num_items++] = item`. -/
def pushItem (t : Tree) (leaf : NodeId) (item : LeafItem) : Except IntSetError (NodeId × Tree) :=
  match t.nodes[leaf]? with
  | some (.leaf items next) =>
    .ok (leaf, { t with nodes := t.nodes.set leaf (.leaf (items ++ [item]) next) })
  | _ => .error .badPointer

/-- Add an item to the rightmost leaf, or to a new one if it is full. -/
def addItem (t : Tree) (leaf : NodeId) (item : LeafItem) : Except IntSetError (NodeId × Tree) :=
  match t.nodes[leaf]? with
  | some (.leaf items _) =>
    if items.length ≥ maxLeafItems then
      let newLeaf := t.nodes.length
      let t : Tree := { t with
        nodes := (t.nodes ++ [Node.leaf [] none]).set leaf (.leaf items (some newLeaf))
        rightmostNodes := update t.rightmostNodes 0 (some newLeaf) }
      match t.updateUpper 1 newLeaf item.first with
      | .error e => .error e
      | .ok t => t.pushItem newLeaf item
    else t.pushItem leaf item
  | _ => .error .badPointer

end Tree

/-! ### Subtrees -/

section Subtree

/-- What is read of a node on the way down, which never looks at the sibling. -/
def contents (nodes : List Node) (id : NodeId) : Option Node := (nodes[id]?).map Node.unlinked

/-- The first integer of the items. -/
def FirstKey (L : List LeafItem) (key : UInt64) : Prop := L.head?.map LeafItem.first = some key

/-- The node at `level` holds the items `L`, and the nodes below it have as many entries as `P`
allows. -/
def Subtree (P : ℕ → Prop) (nodes : List Node) : ℕ → NodeId → List LeafItem → Prop
  | 0, id, L => contents nodes id = some (.leaf L none) ∧ P L.length
  | level + 1, id, L => ∃ entries Ls,
      contents nodes id = some (.internal (level + 1) entries) ∧ P entries.length ∧
        List.Forall₂ (fun e L => Subtree P nodes level e.2 L ∧ FirstKey L e.1) entries Ls ∧
        L = Ls.flatten

/-- The downlinks of a node and the items below them. -/
abbrev Children (P : ℕ → Prop) (nodes : List Node) (level : ℕ)
    (entries : List (UInt64 × NodeId)) (Ls : List (List LeafItem)) : Prop :=
  List.Forall₂ (fun e L => Subtree P nodes level e.2 L ∧ FirstKey L e.1) entries Ls

variable {P : ℕ → Prop} {nodes nodes' : List Node} {level id : ℕ} {L : List LeafItem}
  {entries : List (UInt64 × NodeId)} {Ls : List (List LeafItem)}

/-- A subtree depends on nodes with an allowed number of entries only. -/
theorem Subtree.frame (h : Subtree P nodes level id L)
    (hnodes : ∀ id n, contents nodes id = some n → P n.numItems → contents nodes' id = some n) :
    Subtree P nodes' level id L := by
  induction level generalizing id L with
  | zero => exact ⟨hnodes _ _ h.1 h.2, h.2⟩
  | succ _ ih =>
    obtain ⟨entries, Ls, hnode, hsize, hchildren, rfl⟩ := h
    exact ⟨entries, Ls, hnodes _ _ hnode hsize, hsize,
      hchildren.imp fun e L he => ⟨ih he.1, he.2⟩, rfl⟩

theorem Subtree.mono {Q : ℕ → Prop} (h : Subtree P nodes level id L) (hPQ : ∀ n, P n → Q n) :
    Subtree Q nodes level id L := by
  induction level generalizing id L with
  | zero => exact ⟨h.1, hPQ _ h.2⟩
  | succ _ ih =>
    obtain ⟨entries, Ls, hnode, hsize, hchildren, rfl⟩ := h
    exact ⟨entries, Ls, hnode, hPQ _ hsize, hchildren.imp fun e L he => ⟨ih he.1, he.2⟩, rfl⟩

theorem length_flatten_of_forall₂ {α : Type*} {R : α → List LeafItem → Prop} {m : ℕ}
    (hR : ∀ e L, R e L → L.length = m) {entries : List α} {Ls : List (List LeafItem)}
    (h : List.Forall₂ R entries Ls) : Ls.flatten.length = entries.length * m := by
  induction h with
  | nil => simp
  | cons he _ ih =>
    rw [flatten_cons, length_append, hR _ _ he, ih, length_cons, Nat.succ_mul,
      Nat.add_comm]

/-- A tree in which every node has `m` entries holds `m ^ (level + 1)` items. -/
theorem Subtree.length {m : ℕ} (h : Subtree (· = m) nodes level id L) :
    L.length = m ^ (level + 1) := by
  induction level generalizing id L with
  | zero => rw [h.2, Nat.pow_one]
  | succ _ ih =>
    obtain ⟨_, _, -, hsize, hchildren, rfl⟩ := h
    rw [length_flatten_of_forall₂ (fun e L he => ih he.1) hchildren, hsize, Nat.mul_comm,
      ← Nat.pow_succ]

/-- The items below some downlinks begin with the key of the first downlink. -/
theorem Children.firstKey (h : Children P nodes level entries Ls) (hL : L = Ls.flatten) :
    L.head?.map LeafItem.first = entries.head?.map Prod.fst := by
  cases h with
  | nil => rw [hL]; rfl
  | @cons e L' entries Ls he h =>
    have hfirst := he.2
    obtain ⟨item, tail, rfl⟩ : ∃ item tail, L' = item :: tail := by
      cases L' with
      | nil => exact absurd hfirst (by simp [FirstKey])
      | cons item tail => exact ⟨item, tail, rfl⟩
    rw [hL]
    exact hfirst

/-- The first value on a page is the first value below it. -/
theorem Subtree.firstKey_eq (h : Subtree P nodes level id L) :
    (nodes[id]?).bind Node.firstKey = L.head?.map LeafItem.first := by
  have hcontents : (contents nodes id).bind Node.firstKey = (nodes[id]?).bind Node.firstKey := by
    rw [contents]
    cases nodes[id]? with
    | none => rfl
    | some n => cases n <;> rfl
  rw [← hcontents]
  cases level with
  | zero => rw [h.1]; rfl
  | succ =>
    obtain ⟨_, _, hnode, -, hchildren, hL⟩ := h
    rw [hnode, Children.firstKey hchildren hL]
    rfl

end Subtree

/-! ### The path to the root -/

section Above

/-- Every node has all the entries it has room for. -/
abbrev Full (nodes : List Node) : ℕ → NodeId → List LeafItem → Prop := Subtree (· = 64) nodes

/-- The node `c` at level `l` is the last one of its level and `left` are the items before it. Its
parent, with the downlink `k`, is the rightmost node one level up, and all other downlinks of
the parent lead to full subtrees. -/
inductive Above (t : Tree) : ℕ → NodeId → UInt64 → List LeafItem → Prop
  | root {l c : ℕ} {k : UInt64} :
      t.root = some c → t.numLevels = l + 1 → Above t l c k []
  | node {l c p : ℕ} {k : UInt64} {entries : List (UInt64 × NodeId)} {Ls : List (List LeafItem)}
      {left : List LeafItem} :
      l + 1 < t.numLevels → t.rightmostNodes (l + 1) = some p →
      contents t.nodes p = some (.internal (l + 1) (entries ++ [(k, c)])) →
      entries.length < 64 → Children (· = 64) t.nodes l entries Ls →
      Above t (l + 1) p ((entries.head?.map Prod.fst).getD k) left →
      Above t l c k (left ++ Ls.flatten)

variable {t t' : Tree} {l c : ℕ} {k : UInt64} {left : List LeafItem}

/-- What is above a node depends on full nodes and on nodes of higher levels only. -/
theorem Above.frame (h : Above t l c k left) (hroot : t'.root = t.root)
    (hlevels : t'.numLevels = t.numLevels)
    (hright : ∀ j, l < j → t'.rightmostNodes j = t.rightmostNodes j)
    (hnodes : ∀ id n, contents t.nodes id = some n → l < n.level ∨ n.numItems = 64 →
      contents t'.nodes id = some n) : Above t' l c k left := by
  induction h with
  | root hr hl => exact .root (hroot.trans hr) (hlevels.trans hl)
  | @node l c p k entries Ls left hl hp hnode hroom hchildren _ ih =>
    refine .node (hlevels ▸ hl) (by rw [hright _ (Nat.lt_succ_self l), hp])
      (hnodes _ _ hnode (.inl (Nat.lt_succ_self l))) hroom ?_ (ih ?_ ?_)
    · exact hchildren.imp fun e L he =>
        ⟨he.1.frame fun id n hn hsize => hnodes id n hn (.inr hsize), he.2⟩
    · exact fun j hj => hright j (by omega)
    · exact fun id n hn hsize => hnodes id n hn (hsize.imp_left (by omega))

theorem Above.subtree (h : Above t l c k left) {L : List LeafItem}
    (hL : Subtree (fun _ => True) t.nodes l c L) (hkey : FirstKey L k) :
    ∃ root, t.root = some root ∧
      Subtree (fun _ => True) t.nodes (t.numLevels - 1) root (left ++ L) := by
  induction h generalizing L with
  | root hr hl => exact ⟨_, hr, by rwa [hl]⟩
  | @node l c p k entries Ls left hl hp hnode hroom hchildren _ ih =>
    have hall : Children (fun _ => True) t.nodes l (entries ++ [(k, c)]) (Ls ++ [L]) :=
      rel_append (hchildren.imp fun e L he => ⟨he.1.mono fun _ _ => trivial, he.2⟩)
        (.cons ⟨hL, hkey⟩ .nil)
    obtain ⟨root, hroot, hsub⟩ := ih (L := Ls.flatten ++ L)
      ⟨_, _, hnode, trivial, hall, by simp⟩ (by
        have := Children.firstKey hall rfl
        rw [FirstKey, show Ls.flatten ++ L = (Ls ++ [L]).flatten by simp, this]
        cases entries <;> rfl)
    exact ⟨root, hroot, by rwa [append_assoc]⟩

end Above

/-! ### Inserting a downlink -/

section UpdateUpper

/-- What `updateUpper` leaves alone when it inserts the downlink of a node at level `l`. -/
structure Untouched (l : ℕ) (t t' : Tree) : Prop where
  nodes : ∀ (id : ℕ) (n : Node), t.nodes[id]? = some n → n.level ≤ l ∨ n.numItems = 64 →
    t'.nodes[id]? = some n
  rightmost : ∀ j, j ≤ l → t'.rightmostNodes j = t.rightmostNodes j
  leftmost : t'.leftmostLeaf = t.leftmostLeaf
  levels : t'.numLevels ≤ maxTreeLevels

variable {t t' : Tree} {l c c' : ℕ} {k k' : UInt64} {left L : List LeafItem}

variable {nodes : List Node} {id p : ℕ} {entries : List (UInt64 × NodeId)}

theorem contents_internal {level : ℕ} :
    contents nodes id = some (.internal level entries) ↔
      nodes[id]? = some (.internal level entries) := by
  rw [contents]
  cases nodes[id]? with
  | none => simp
  | some n => cases n <;> simp [Node.unlinked]

theorem contents_mono {nodes' : List Node} {p : Node → Prop} (hp : ∀ n, p n.unlinked → p n)
    (h : ∀ (id : ℕ) (n : Node), nodes[id]? = some n → p n → nodes'[id]? = some n)
    (id : ℕ) (n : Node)
    (hn : contents nodes id = some n) (hpn : p n) : contents nodes' id = some n := by
  obtain ⟨m, hm, rfl⟩ := Option.map_eq_some_iff.mp hn
  rw [contents, h id m hm (hp m hpn), Option.map_some]

/-- Nodes that are not written stay, and so does everything when a node is allocated. -/
theorem getElem?_append_of_some {n : Node} (h : nodes[id]? = some n)
    (new : Node) : (nodes ++ [new])[id]? = some n := by
  rw [List.getElem?_append_left (List.getElem?_eq_some_iff.mp h).1, h]

def Tree.newRoot (t : Tree) (level : ℕ) (entries : List (UInt64 × NodeId)) : Tree :=
  { t with
    nodes := t.nodes ++ [.internal level entries]
    numLevels := t.numLevels + 1
    root := some t.nodes.length
    rightmostNodes := update t.rightmostNodes level (some t.nodes.length) }

theorem updateUpper_root (hroot : t.root = some c) (hlevels : t.numLevels = l + 1)
    (hlt : l + 1 < maxTreeLevels) (hfull : Full t.nodes l c L) (hkey : FirstKey L k) :
    t.updateUpper (l + 1) c' k' = .ok (t.newRoot (l + 1) [(k, c), (k', c')]) := by
  have hexpand : t.expand (l + 1) = .ok (t.newRoot (l + 1) [(k, c)]) := by
    rw [Tree.expand, if_pos (by omega), if_neg (by omega), hroot]
    dsimp only
    rw [hfull.firstKey_eq, hkey]
    rfl
  rw [Tree.updateUpper, hexpand]
  dsimp only [Tree.newRoot]
  rw [if_pos hlt, update_self, Option.bind_some, List.getElem?_concat_length,
    Option.map_some]
  simp [maxInternalItems]

theorem updateUpper_room (hl : l + 1 < t.numLevels)
    (hlevels : t.numLevels ≤ maxTreeLevels) (hp : t.rightmostNodes (l + 1) = some p)
    (hnode : t.nodes[p]? = some (.internal (l + 1) entries)) (hroom : entries.length < 64) :
    t.updateUpper (l + 1) c' k' =
      .ok { t with nodes := t.nodes.set p (.internal (l + 1) (entries ++ [(k', c')])) } := by
  rw [Tree.updateUpper, Tree.expand, if_neg (by omega)]
  dsimp only
  rw [if_pos (by omega), hp, Option.bind_some, hnode, Option.map_some]
  dsimp only
  rw [if_pos (show entries.length < maxInternalItems from hroom)]

theorem updateUpper_full (hl : l + 1 < t.numLevels)
    (hlevels : t.numLevels ≤ maxTreeLevels) (hp : t.rightmostNodes (l + 1) = some p)
    (hnode : t.nodes[p]? = some (.internal (l + 1) entries)) (hroom : entries.length = 64) :
    t.updateUpper (l + 1) c' k' =
      Tree.updateUpper
        { t with
          nodes := t.nodes ++ [.internal (l + 1) [(k', c')]]
          rightmostNodes := update t.rightmostNodes (l + 1) (some t.nodes.length) }
        (l + 2) t.nodes.length k' := by
  rw [Tree.updateUpper, Tree.expand, if_neg (by omega)]
  dsimp only
  rw [if_pos (by omega), hp, Option.bind_some, hnode, Option.map_some]
  dsimp only
  rw [if_neg (by rw [hroom]; decide)]

theorem getElem?_set_of_room {n m : Node} {q : Node → Prop}
    (hp : nodes[p]? = some m) (hm : ¬ q m) (hn : nodes[id]? = some n) (hq : q n) (new : Node) :
    (nodes.set p new)[id]? = some n := by
  have hne : p ≠ id := by
    rintro rfl
    rw [hp, Option.some.injEq] at hn
    exact hm (hn ▸ hq)
  rw [List.getElem?_set_ne hne, hn]

theorem Above.level_lt (h : Above t l c k left) : l < t.numLevels := by
  cases h with
  | root _ hl | node hl _ _ _ _ _ => omega

/-- The state after a downlink was inserted to the right of a full subtree. -/
def Inserted (t : Tree) (l c' : ℕ) (k' : UInt64) (L : List LeafItem) (t' : Tree) : Prop :=
  t.updateUpper (l + 1) c' k' = .ok t' ∧ Above t' l c' k' L ∧ Untouched l t t'

theorem inserted_root (hroot : t.root = some c) (hl : t.numLevels = l + 1)
    (hlt : l + 1 < maxTreeLevels) (hfull : Full t.nodes l c L) (hkey : FirstKey L k) :
    Inserted t l c' k' L (t.newRoot (l + 1) [(k, c), (k', c')]) := by
  refine ⟨updateUpper_root hroot hl hlt hfull hkey, ?_, ?_⟩
  · have hchild : Full (t.newRoot (l + 1) [(k, c), (k', c')]).nodes l c L :=
      hfull.frame (contents_mono (by simp) fun id n hn _ => getElem?_append_of_some hn _)
    have hnode : contents (t.newRoot (l + 1) [(k, c), (k', c')]).nodes t.nodes.length =
        some (.internal (l + 1) ([(k, c)] ++ [(k', c')])) :=
      contents_internal.mpr List.getElem?_concat_length
    have htop : Above (t.newRoot (l + 1) [(k, c), (k', c')]) (l + 1) t.nodes.length k [] :=
      .root rfl (by dsimp only [Tree.newRoot]; omega)
    have := Above.node (by dsimp only [Tree.newRoot]; omega)
      (by rw [Tree.newRoot]; exact update_self _ _ _) hnode (Nat.lt_of_sub_eq_succ rfl)
      (.cons ⟨hchild, hkey⟩ .nil) htop
    simpa using this
  · refine ⟨fun id n hn _ => getElem?_append_of_some hn _, fun j hj => ?_, rfl, ?_⟩
    · exact update_of_ne (by omega) _ _
    · dsimp only [Tree.newRoot]
      omega

variable {Ls : List (List LeafItem)}

/-- The parent has room for the downlink. -/
theorem inserted_room (hl : l + 1 < t.numLevels) (hlevels : t.numLevels ≤ maxTreeLevels)
    (hp : t.rightmostNodes (l + 1) = some p)
    (hnode : t.nodes[p]? = some (.internal (l + 1) (entries ++ [(k, c)])))
    (hroom : entries.length + 1 < 64) (hchildren : Children (· = 64) t.nodes l entries Ls)
    (habove : Above t (l + 1) p ((entries.head?.map Prod.fst).getD k) left)
    (hfull : Full t.nodes l c L) (hkey : FirstKey L k) :
    Inserted t l c' k' (left ++ (Ls ++ [L]).flatten)
      { t with
        nodes := t.nodes.set p (.internal (l + 1) (entries ++ [(k, c)] ++ [(k', c')])) } := by
  have hlen : (entries ++ [(k, c)]).length = entries.length + 1 := length_append
  -- the parent is neither full nor on another level
  have hkeep (q : Node → Prop) (hq : ¬ q (.internal (l + 1) (entries ++ [(k, c)]))) (id : ℕ)
      (n : Node) (hn : t.nodes[id]? = some n) (hqn : q n) :
      (t.nodes.set p (.internal (l + 1) (entries ++ [(k, c)] ++ [(k', c')])))[id]? = some n :=
    getElem?_set_of_room hnode hq hn hqn _
  have hstays : ∀ id n, contents t.nodes id = some n → n.numItems = 64 →
      contents (t.nodes.set p (.internal (l + 1) (entries ++ [(k, c)] ++ [(k', c')]))) id =
        some n := by
    refine contents_mono (by simp) (hkeep _ ?_)
    simp only [Node.numItems]
    omega
  refine ⟨updateUpper_room hl hlevels hp hnode (by omega), ?_, ?_⟩
  · have hset : contents (t.nodes.set p (.internal (l + 1) (entries ++ [(k, c)] ++ [(k', c')]))) p =
        some (.internal (l + 1) (entries ++ [(k, c)] ++ [(k', c')])) :=
      contents_internal.mpr (List.getElem?_set_self (List.getElem?_eq_some_iff.mp hnode).1)
    refine .node hl hp hset (by omega) ?_ ?_
    · exact rel_append (hchildren.imp fun e L he => ⟨he.1.frame hstays, he.2⟩)
        (.cons ⟨hfull.frame hstays, hkey⟩ .nil)
    · have hhead : (((entries ++ [(k, c)]).head?.map Prod.fst).getD k') =
          (entries.head?.map Prod.fst).getD k := by cases entries <;> rfl
      rw [hhead]
      refine habove.frame rfl rfl (fun _ _ => rfl) ?_
      refine contents_mono (by simp) (hkeep _ ?_)
      simp only [Node.level, Node.numItems]
      omega
  · refine ⟨hkeep _ ?_, fun _ _ => rfl, rfl, hlevels⟩
    simp only [Node.level, Node.numItems]
    omega

/-- The parent is full, and a new one that has only the downlink is inserted one level up. -/
theorem inserted_full (hl : l + 1 < t.numLevels) (hlevels : t.numLevels ≤ maxTreeLevels)
    (hp : t.rightmostNodes (l + 1) = some p)
    (hnode : t.nodes[p]? = some (.internal (l + 1) entries)) (hroom : entries.length = 64)
    (hup : Inserted
      { t with
        nodes := t.nodes ++ [.internal (l + 1) [(k', c')]]
        rightmostNodes := update t.rightmostNodes (l + 1) (some t.nodes.length) }
      (l + 1) t.nodes.length k' L t') : Inserted t l c' k' L t' := by
  obtain ⟨hcall, habove, hsame⟩ := hup
  refine ⟨(updateUpper_full hl hlevels hp hnode hroom).trans hcall, ?_, ?_⟩
  · have hnew : contents t'.nodes t.nodes.length = some (.internal (l + 1) ([] ++ [(k', c')])) :=
      contents_internal.mpr (hsame.nodes _ _ List.getElem?_concat_length (.inl (Nat.le_refl _)))
    have := Above.node habove.level_lt
      ((hsame.rightmost _ (Nat.le_refl _)).trans (update_self _ _ _)) hnew
      (Nat.lt_of_sub_eq_succ rfl) .nil habove
    simpa using this
  · refine ⟨fun id n hn hkeep => ?_, fun j hj => ?_, hsame.leftmost, hsame.levels⟩
    · exact hsame.nodes _ _ (getElem?_append_of_some hn _) (hkeep.imp_left (by omega))
    · exact (hsame.rightmost j (by omega)).trans (update_of_ne (by omega) _ _)

/-- The downlink of a new node is inserted to the right of a full one. Only a tree that has the
maximal number of levels and is full up to its root could refuse it. -/
theorem exists_inserted (h : Above t l c k left) (hfull : Full t.nodes l c L)
    (hkey : FirstKey L k) (hlevels : t.numLevels ≤ maxTreeLevels)
    (hsmall : left.length + L.length < 64 ^ maxTreeLevels) :
    ∃ t', Inserted t l c' k' (left ++ L) t' := by
  -- by induction on the number of levels above the node
  induction hm : maxTreeLevels - l generalizing t l c k c' left L with
  | zero =>
    have := h.level_lt
    omega
  | succ m ih =>
    cases h with
    | root hroot hl =>
      have hlt : l + 1 < maxTreeLevels := by
        rcases Nat.lt_or_ge (l + 1) maxTreeLevels with hlt | hge
        · exact hlt
        · have hlen := hfull.length
          rw [show l + 1 = maxTreeLevels by omega] at hlen
          omega
      exact ⟨_, inserted_root hroot hl hlt hfull hkey⟩
    | @node _ _ p _ entries Ls left hl hp hnode hroom hchildren habove =>
      rw [contents_internal] at hnode
      have hflat : left ++ Ls.flatten ++ L = left ++ (Ls ++ [L]).flatten := by simp
      rw [hflat]
      rcases Nat.lt_or_ge (entries.length + 1) 64 with hlt | hge
      · exact ⟨_, inserted_room hl hlevels hp hnode hlt hchildren habove hfull hkey⟩
      · have hlen : (entries ++ [(k, c)]).length = 64 := by
          rw [length_append, length_singleton]
          omega
        have hall : Children (· = 64) t.nodes l (entries ++ [(k, c)]) (Ls ++ [L]) :=
          rel_append hchildren (.cons ⟨hfull, hkey⟩ .nil)
        have hparent : Full t.nodes (l + 1) p (Ls ++ [L]).flatten :=
          ⟨_, _, contents_internal.mpr hnode, hlen, hall, rfl⟩
        have hkey' : FirstKey (Ls ++ [L]).flatten ((entries.head?.map Prod.fst).getD k) := by
          rw [FirstKey, Children.firstKey hall rfl]
          cases entries <;> rfl
        have hsmall' : left.length + (Ls ++ [L]).flatten.length < 64 ^ maxTreeLevels := by
          rw [← length_append, ← hflat, length_append]
          exact hsmall
        -- the new parent changes neither the old nodes nor what is above them
        have hgrows : ∀ id n, contents t.nodes id = some n → True →
            contents (t.nodes ++ [.internal (l + 1) [(k', c')]]) id = some n :=
          contents_mono (fun _ h => h) fun id n hn _ => getElem?_append_of_some hn _
        have hparent' : Full (t.nodes ++ [.internal (l + 1) [(k', c')]]) (l + 1) p
            (Ls ++ [L]).flatten := hparent.frame fun id n hn _ => hgrows id n hn trivial
        have habove' : Above
            { t with
              nodes := t.nodes ++ [.internal (l + 1) [(k', c')]]
              rightmostNodes := update t.rightmostNodes (l + 1) (some t.nodes.length) }
            (l + 1) p ((entries.head?.map Prod.fst).getD k) left :=
          habove.frame rfl rfl (fun j hj => update_of_ne (by omega) _ _)
            fun id n hn _ => hgrows id n hn trivial
        obtain ⟨t', ht'⟩ := ih habove' hparent' hkey' hlevels hsmall' (by omega)
        exact ⟨t', inserted_full hl hlevels hp hnode hlen ht'⟩

end UpdateUpper

end PgCutover.IntSet
