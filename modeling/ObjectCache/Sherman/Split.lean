import ObjectCache.Sherman.Node

/-! The four overloads of `split_node`, and what they leave behind when a new block is local and
when it is not. -/

namespace ObjectCache.Sherman

open Btree

variable {A V : Type}

/-- The block of the split node and the two that `allocate` returned. -/
structure Blocks (A : Type) where
  origin : A
  new_neighbor : A
  new_parent : A

/-- The outcomes of `is_local` for the two new blocks. -/
structure Locality where
  new_neighbor : Bool
  new_parent : Bool

/-- `split_keys` and `split_ptrs` into a new node. -/
def BNode.halve (degree : ℕ) (node : BNode A) : Key × BNode A × BNode A :=
  let (to_parent, keys, keys') := splitKeys degree node.keys (new (A := A)).keys true
  let (ptrs, ptrs') := splitPtrs degree node.ptrs (new (A := A)).ptrs
  (to_parent, { node with keys, ptrs }, { (new : BNode A) with keys := keys', ptrs := ptrs' })

/-- What reaches the block of the neighbour. -/
def BNode.neighbor (node neighbor : BNode A) (to_parent : Key) (is_local : Bool) : BNode A :=
  if is_local then (neighbor.setRange to_parent node.key_high).setLevel node.height
  -- the Write comes before set_range and set_level
  else neighbor

def newParent (blocks : Blocks A) (level : ℤ) (to_parent : Key) (is_local : Bool) : BNode A :=
  if is_local then
    (((BNode.new.setLevel level).setKey 0 to_parent).setPtr 0 blocks.origin).setPtr 1 blocks.new_neighbor
  else
    (((BNode.new.setLevel level).setKey 0 to_parent).setPtr 0 blocks.origin).setPtr 1 blocks.new_neighbor

/-- The key and the neighbour that `split_node` enters into the parent; no answer where its
assertion fails. -/
def BNode.enter (degree : ℕ) (parent : BNode A) (to_parent : Key) (new_neighbor : A) :
    Option (BNode A) :=
  (searchNode degree parent.keys to_parent).map fun bucket =>
    ((parent.shiftUp degree bucket).setKey bucket to_parent).setPtr (bucket + 1) new_neighbor

section Leaf

variable [IntCast V]

/-- `split_keys` and `split_values` into a new leaf. -/
def BLeaf.halve (degree : ℕ) (node : BLeaf A V) : Key × BLeaf A V × BLeaf A V :=
  let (to_parent, keys, keys') := splitKeys degree node.keys (new : BLeaf A V).keys false
  let (values, values') := splitValues degree node.values (new : BLeaf A V).values
  (to_parent, { node with keys, values }, { (new : BLeaf A V) with keys := keys', values := values' })

end Leaf

/-- The contents of all blocks after a split. -/
structure Contents (P N A : Type) where
  parent : P
  node : N
  neighbor : N
  new_parent : Option (BNode A)

def splitRootNode (degree : ℕ) (blocks : Blocks A) (l : Locality) (parent : BRoot A) (node : BNode A) :
    Contents (BRoot A) (BNode A) A :=
  let parent := parent.setStartAndInc blocks.new_parent
  let (to_parent, node, half) := node.halve degree
  let neighbor := node.neighbor half to_parent l.new_neighbor
  let node := node.setRange node.key_low to_parent
  let new_parent := newParent blocks parent.height to_parent l.new_parent
  ⟨parent.incrementVersion, node.incrementVersion, neighbor, some new_parent⟩

def splitRootLeaf [IntCast V] (degree : ℕ) (blocks : Blocks A) (l : Locality) (parent : BRoot A)
    (node : BLeaf A V) : Contents (BRoot A) (BLeaf A V) A :=
  let parent := parent.setStartAndInc blocks.new_parent
  let (to_parent, half, new_leaf) := node.halve degree
  let neighbor :=
    if l.new_neighbor then new_leaf.setRange to_parent node.key_high
    else new_leaf.setRange to_parent node.key_high
  let node := (half.setNext (some blocks.new_neighbor)).setRange node.key_low to_parent
  let new_parent := newParent blocks parent.height to_parent l.new_parent
  ⟨parent.incrementVersion, node.incrementVersion, neighbor, some new_parent⟩

def splitNode (degree : ℕ) (blocks : Blocks A) (l : Locality) (parent node : BNode A) :
    Option (Contents (BNode A) (BNode A) A) := do
  let (to_parent, node, half) := node.halve degree
  let neighbor := node.neighbor half to_parent l.new_neighbor
  let node := node.setRange node.key_low to_parent
  let parent ← parent.enter degree to_parent blocks.new_neighbor
  return ⟨parent.incrementVersion, node.incrementVersion, neighbor, none⟩

/-- The split node is left locked for the caller, who writes it. -/
def splitLeaf [IntCast V] (degree : ℕ) (blocks : Blocks A) (l : Locality) (parent : BNode A)
    (node : BLeaf A V) : Option (Contents (BNode A) (BLeaf A V) A) := do
  let (to_parent, half, new_leaf) := node.halve degree
  let neighbor :=
    if l.new_neighbor then
      ((new_leaf.setNext half.next).setRange to_parent node.key_high).lock
    else
      ((new_leaf.setNext half.next).setRange to_parent node.key_high).lock
  let node := (half.setNext (some blocks.new_neighbor)).setRange node.key_low to_parent
  let parent ← parent.enter degree to_parent blocks.new_neighbor
  return ⟨parent.incrementVersion, node.incrementVersion, neighbor, none⟩

/-! ### Independence of the place -/

/-- The arguments of an overload. -/
inductive Split (A V : Type) where
  | rootNode (parent : BRoot A) (node : BNode A)
  | rootLeaf (parent : BRoot A) (node : BLeaf A V)
  | node (parent node : BNode A)
  | leaf (parent : BNode A) (node : BLeaf A V)

/-- Every slot holds a valid key. -/
def Full (degree : ℕ) (keys : Slots Key) : Prop :=
  ∀ i < SIZE degree, INT_MIN < keys i ∧ keys i < SENTINEL

namespace Split

variable [IntCast V]

def ofLeaf : Split A V → Bool
  | rootNode _ _ | node _ _ => false
  | rootLeaf _ _ | leaf _ _ => true

/-- All slots of the node are used, and a parent node has a free one. -/
def Passed (degree : ℕ) : Split A V → Prop
  | rootNode _ n => Full degree n.keys
  | rootLeaf _ n => Full degree n.keys
  | node p n => p.keys (SIZE degree - 1) = SENTINEL ∧ Full degree n.keys
  | leaf p n => p.keys (SIZE degree - 1) = SENTINEL ∧ Full degree n.keys

/-- The outcome is the one of local blocks, and the neighbour is bounded by the separator and the
upper bound of the split node, on its level. -/
def Independent (degree : ℕ) (blocks : Blocks A) (l : Locality) : Split A V → Prop
  | rootNode p n =>
    let c := splitRootNode degree blocks l p n
    c = splitRootNode degree blocks ⟨true, true⟩ p n ∧
      c.neighbor.key_low = n.keys degree ∧ c.neighbor.key_high = n.key_high ∧
      c.neighbor.height = n.height
  | rootLeaf p n =>
    let c := splitRootLeaf degree blocks l p n
    c = splitRootLeaf degree blocks ⟨true, true⟩ p n ∧
      c.neighbor.key_low = n.keys degree ∧ c.neighbor.key_high = n.key_high
  | node p n =>
    splitNode degree blocks l p n = splitNode degree blocks ⟨true, true⟩ p n ∧
      ∃ c, splitNode degree blocks l p n = some c ∧
        c.neighbor.key_low = n.keys degree ∧ c.neighbor.key_high = n.key_high ∧
        c.neighbor.height = n.height
  | leaf p n =>
    splitLeaf degree blocks l p n = splitLeaf degree blocks ⟨true, true⟩ p n ∧
      ∃ c, splitLeaf degree blocks l p n = some c ∧
        c.neighbor.key_low = n.keys degree ∧ c.neighbor.key_high = n.key_high

end Split

variable {degree : ℕ} {blocks : Blocks A} {l : Locality}

lemma Full.separator {keys : Slots Key} (h : Full degree keys) :
    INT_MIN < keys degree ∧ keys degree < SENTINEL :=
  h degree (by simp only [SIZE]; omega)

lemma enter_eq_some (l : Blocks A) {p : BNode A} {key : Key} (hp : p.keys (SIZE degree - 1) = SENTINEL)
    (hk : key < SENTINEL) : ∃ q, p.enter degree key l.new_neighbor = some q := by
  have hs : ¬ p.keys (SIZE degree - 1) < key := by
    rw [hp]
    exact Int.not_lt.mpr (Int.le_of_lt hk)
  rw [BNode.enter, searchNode, if_neg hs]
  exact ⟨_, rfl⟩

/-- Only a local neighbour gets the separator as its lower bound. -/
lemma neighbor_low_iff {n half : BNode A} {key : Key} {b : Bool} (hk : INT_MIN < key)
    (hl : half.key_low = INT_MIN) : (n.neighbor half key b).key_low = key ↔ b = true := by
  cases b with
  | true => exact iff_of_true rfl rfl
  | false =>
    refine iff_of_false ?_ (by simp)
    simp only [BNode.neighbor, Bool.false_eq_true, if_false, hl]
    exact Int.ne_of_lt hk

lemma newParent_eq (level : ℤ) (key : Key) (b : Bool) :
    newParent blocks level key b = newParent blocks level key true := by
  cases b <;> rfl

section

variable [IntCast V]

lemma independent_rootNode {p : BRoot A} {n : BNode A} (hn : Full degree n.keys) :
    (Split.rootNode p n : Split A V).Independent degree blocks l ↔ l.new_neighbor = true := by
  constructor
  · rintro ⟨-, hlow, -⟩
    exact (neighbor_low_iff hn.separator.1 rfl).mp hlow
  · intro hl
    refine ⟨?_, ?_⟩
    · simp only [splitRootNode, hl]
      rw [newParent_eq]
    · simp only [splitRootNode, hl]
      exact ⟨rfl, rfl, rfl⟩

lemma independent_rootLeaf {p : BRoot A} {n : BLeaf A V} :
    (Split.rootLeaf p n).Independent degree blocks l := by
  refine ⟨?_, ?_⟩
  · simp only [splitRootLeaf, ite_self]
    rw [newParent_eq]
  · simp only [splitRootLeaf, ite_self]
    exact ⟨rfl, rfl⟩

lemma independent_node {p n : BNode A} (hp : p.keys (SIZE degree - 1) = SENTINEL)
    (hn : Full degree n.keys) :
    (Split.node p n : Split A V).Independent degree blocks l ↔ l.new_neighbor = true := by
  obtain ⟨q, hq⟩ := enter_eq_some blocks hp hn.separator.2
  have hsplit : ∀ l, splitNode degree blocks l p n = some ⟨q.incrementVersion,
      ((n.halve degree).2.1.setRange n.key_low (n.keys degree)).incrementVersion,
      (n.halve degree).2.1.neighbor (n.halve degree).2.2 (n.keys degree) l.new_neighbor, none⟩ := by
    intro l
    have hq' : p.enter degree (n.halve degree).1 blocks.new_neighbor = some q := hq
    simp only [splitNode, hq']
    rfl
  simp only [Split.Independent, hsplit]
  constructor
  · rintro ⟨-, c, hc, hlow, -⟩
    cases hc
    exact (neighbor_low_iff hn.separator.1 rfl).mp hlow
  · intro hl
    rw [hl]
    exact ⟨rfl, _, rfl, rfl, rfl, rfl⟩

lemma independent_leaf {p : BNode A} {n : BLeaf A V} (hp : p.keys (SIZE degree - 1) = SENTINEL)
    (hn : Full degree n.keys) : (Split.leaf p n).Independent degree blocks l := by
  obtain ⟨q, hq⟩ := enter_eq_some blocks hp hn.separator.2
  have hq' : p.enter degree (n.halve degree).1 blocks.new_neighbor = some q := hq
  refine ⟨?_, ?_⟩
  · simp only [splitLeaf, ite_self]
  · simp only [splitLeaf, ite_self, hq']
    exact ⟨_, rfl, rfl, rfl⟩

/-- A split leaves the same behind wherever the new blocks live just when it splits a leaf or the
neighbour is local. -/
theorem independent_iff (degree : ℕ) (blocks : Blocks A) (l : Locality) (s : Split A V)
    (hs : s.Passed degree) :
    s.Independent degree blocks l ↔ s.ofLeaf = true ∨ l.new_neighbor = true := by
  cases s with
  | rootNode p n => simpa [Split.ofLeaf] using independent_rootNode hs
  | rootLeaf p n => exact iff_of_true independent_rootLeaf (.inl rfl)
  | node p n => simpa [Split.ofLeaf] using independent_node hs.1 hs.2
  | leaf p n => exact iff_of_true (independent_leaf hs.1 hs.2) (.inl rfl)

end

/-! ### A full node under the root -/

def fullNode : BNode ℕ :=
  { (BNode.new : BNode ℕ) with
    keys := fun i => if i < 3 then 10 * (i + 1) else SENTINEL
    ptrs := fun i => some i
    height := 1 }

def rootSplit : Split ℕ ℤ := .rootNode ⟨0, 1, some 7⟩ fullNode

lemma passed_rootSplit : rootSplit.Passed 1 := by
  intro i hi
  have hkeys : ∀ i < 3, INT_MIN < fullNode.keys i ∧ fullNode.keys i < SENTINEL := by decide
  exact hkeys i hi

theorem independent_rootSplit : rootSplit.Independent 1 ⟨7, 8, 9⟩ ⟨true, false⟩ :=
  (independent_iff 1 ⟨7, 8, 9⟩ ⟨true, false⟩ rootSplit passed_rootSplit).mpr (.inr rfl)

/-- A remote neighbour is written with the bounds of a new node. -/
theorem not_independent_rootSplit :
    ¬ ∀ l, rootSplit.Passed 1 → rootSplit.Independent 1 ⟨7, 8, 9⟩ l := by
  intro h
  obtain ⟨-, hlow, -⟩ := h ⟨false, true⟩ passed_rootSplit
  exact absurd hlow (by decide)

end ObjectCache.Sherman
