import ObjectCache.Btree.Nodes
import ObjectCache.Lib.FiniteMap
import ObjectCache.Lib.Transition

/-! `RdmaBPTree` used by one caller at a time: the tree that the pointers span, and what `insert`,
`remove` and `contains` do to it. -/

namespace ObjectCache.Btree.Tree

open Lib

variable {A V : Type} (d : ℕ)

/-- What a pointer names: a leaf, or above the leaves a node. -/
def Sub (V : Type) : ℕ → Type
  | 0 => Leaf V
  | h + 1 => Node (Sub V h)

structure Root (V : Type) where
  height : ℕ
  start : Sub V height

/-- `InitAsFirst`. -/
def Root.new [IntCast V] : Root V := ⟨0, (Leaf.new : Leaf V)⟩

/-- The pointer that `read_level` follows. -/
def slotOf (bucket : ℤ) : ℤ := if bucket = -1 then SIZE d else bucket

def readLevel (curr : Node A) (bucket : ℤ) : Except Fault A := do
  let next_level ← ptrAt d curr.ptrs (slotOf d bucket)
  match next_level with
  | some a => return a
  | none => throw .null

/-- The node that the pointer names has been written. -/
def Node.write (curr : Node A) (bucket : ℤ) (a : A) : Node A :=
  { curr with ptrs := Function.update curr.ptrs (slotOf d bucket).toNat (some a) }

def Node.isFull (n : Node A) : Except Fault Bool := do
  let last ← keyAt d n.keys (SIZE d - 1 : ℕ)
  return last ≠ SENTINEL

def Node.isEmpty (n : Node A) : Except Fault Bool := do
  let first ← keyAt d n.keys (0 : ℕ)
  return first = SENTINEL

def Leaf.isFull (l : Leaf V) : Except Fault Bool := do
  let last ← keyAt d l.keys (SIZE d - 1 : ℕ)
  return last ≠ SENTINEL

def Leaf.isEmpty (l : Leaf V) : Except Fault Bool := do
  let first ← keyAt d l.keys (0 : ℕ)
  return first = SENTINEL

/-- `bucket_neighbor`. -/
def neighborOf (bucket : ℤ) : ℤ := if bucket = 0 then 1 else bucket - 1

variable [IntCast V] (e : Effect V) (key : ℤ)

/-- `effect(leaf, search_node(leaf, key))`. -/
def applyEffect (leaf : Leaf V) : Except Fault (Leaf V × Option V) := do
  let bucket ← searchNode d leaf.keys key
  e leaf bucket

/-- The branch of `traverse` on a full leaf. -/
def splitLeaf (curr : Node (Leaf V)) (bucket : ℤ) (leaf : Leaf V) :
    Except Fault (Node (Leaf V) × Option V) := do
  let s ← leaf.halve d
  let b ← searchNode d s.2.1.keys key
  if s.2.1.keyInRange key then
    let r ← e s.2.1 b
    let curr ← (curr.write d bucket r.1).enter d s.1 s.2.2
    return (curr, r.2)
  else
    let r ← applyEffect d e key s.2.2
    let curr ← (curr.write d bucket s.2.1).enter d s.1 r.1
    return (curr, r.2)

/-- The branch on an empty leaf with a neighbour. -/
def removeLeaf (curr : Node (Leaf V)) (bucket : ℤ) (leaf : Leaf V) :
    Except Fault (Node (Leaf V) × Option V) := do
  let merging ← readLevel d curr (neighborOf bucket)
  let full ← merging.isFull d
  if full then
    let r ← applyEffect d e key leaf
    return (curr.write d bucket r.1, r.2)
  let r ← e leaf 0
  if bucket = 0 then
    let m ← mergeLeaf d r.1 merging 0 curr
    return (m.2.write d 0 m.1, r.2)
  else
    let m ← mergeLeaf d merging r.1 (neighborOf bucket) curr
    return (m.2.write d (neighborOf bucket) m.1, r.2)

/-- The last part of `traverse`: `curr` is the parent of the leaf. No answer means that the call
traverses again. -/
def atLeaf (curr : Node (Leaf V)) (bucket : ℤ) : Except Fault (Node (Leaf V) × Option (Option V)) := do
  let leaf ← readLevel d curr bucket
  if !leaf.keyInRange key then return (curr, none)
  let full ← leaf.isFull d
  let empty ← leaf.isEmpty d
  let only ← curr.isEmpty d
  if full then
    let r ← splitLeaf d e key curr bucket leaf
    return (r.1, some r.2)
  else if empty && !only then
    let r ← removeLeaf d e key curr bucket leaf
    return (r.1, some r.2)
  else
    let r ← applyEffect d e key leaf
    return (curr.write d bucket r.1, some r.2)

/-- The branch on a full node. -/
def splitNode (parent : Node (Node A)) (bucket : ℤ) (curr : Node A) : Except Fault (Node (Node A)) := do
  let s ← curr.halve d
  (parent.write d bucket s.2.1).enter d s.1 s.2.2

/-- The branch on an empty node with a neighbour that is not full. -/
def removeNode (parent : Node (Node A)) (bucket : ℤ) (curr merging : Node A) :
    Except Fault (Node (Node A)) := do
  if bucket = 0 then
    let m ← mergeNode d curr merging 0 parent
    return m.2.write d 0 m.1
  else
    let m ← mergeNode d merging curr (neighborOf bucket) parent
    return m.2.write d (neighborOf bucket) m.1

/-- The descent loop; `continue` after a split or a merge goes on from the parent as it is then. -/
def descend : ℕ → (h : ℕ) → Node (Sub V h) → Except Fault (Node (Sub V h) × Option (Option V))
  | 0, _, _ => throw .fuel
  | _ + 1, 0, curr => do
    let bucket ← searchNode d curr.keys key
    atLeaf d e key curr bucket
  | fuel + 1, h + 1, parent => do
    let bucket ← searchNode d parent.keys key
    let curr : Node (Sub V h) ← readLevel d parent bucket
    let full ← curr.isFull d
    let empty ← curr.isEmpty d
    let only ← parent.isEmpty d
    if full then
      let parent ← splitNode d parent bucket curr
      descend fuel (h + 1) parent
    else if empty && !only then
      let merging : Node (Sub V h) ← readLevel d parent (neighborOf bucket)
      let full ← merging.isFull d
      if full then
        let r ← descend fuel h curr
        return (parent.write d bucket r.1, r.2)
      else
        let parent ← removeNode d parent bucket curr merging
        descend fuel (h + 1) parent
    else
      let r ← descend fuel h curr
      return (parent.write d bucket r.1, r.2)

/-- The new parent that a split at the root allocates. -/
def Node.pair (to_parent : ℤ) (node new_neighbor : A) : Except Fault (Node A) := do
  let n ← (Node.new : Node A).setKey d (0 : ℕ) to_parent
  let n ← n.setPtr d (0 : ℕ) (some node)
  n.setPtr d (1 : ℕ) (some new_neighbor)

/-- An empty node at the top is taken out before the descent, but the descent still starts from it. -/
def takeOut {h : ℕ} (empty : Bool) (curr : Node (Sub V h)) : Except Fault (Root V) :=
  if empty then do
    let start ← readLevel d curr 0
    return ⟨h, start⟩
  else return ⟨h + 1, curr⟩

/-- `traverse` of `insert` and `remove`. -/
def traverse : ℕ → ℕ → Root V → Except Fault (Root V × Option V)
  | 0, _, _ => throw .fuel
  | fuel + 1, it_counter, ⟨0, (leaf : Leaf V)⟩ => do
    if 1000 ≤ it_counter then throw .retries
    let full ← leaf.isFull d
    if full then
      let s ← leaf.halve d
      let start ← Node.pair d s.1 s.2.1 s.2.2
      traverse fuel 0 ⟨1, start⟩
    else
      let r ← applyEffect d e key leaf
      return (⟨0, r.1⟩, r.2)
  | fuel + 1, it_counter, ⟨h + 1, (curr : Node (Sub V h))⟩ => do
    if 1000 ≤ it_counter then throw .retries
    let full ← curr.isFull d
    let empty ← curr.isEmpty d
    if full then
      let s ← curr.halve d
      let start ← Node.pair d s.1 s.2.1 s.2.2
      traverse fuel 0 ⟨h + 2, start⟩
    else
      let r ← descend d e key fuel h curr
      let root ← takeOut d empty r.1
      match r.2 with
      | some v => return (root, v)
      | none => traverse fuel (it_counter + 1) root

/-- The descent of `contains`. -/
def seek : (h : ℕ) → Node (Sub V h) → Except Fault (Leaf V)
  | 0, curr => do
    let bucket ← searchNode d curr.keys key
    readLevel d curr bucket
  | h + 1, curr => do
    let bucket ← searchNode d curr.keys key
    let next : Node (Sub V h) ← readLevel d curr bucket
    seek h next

/-- The leaf that `contains` gets from `traverse`, with so many attempts left. -/
def find : ℕ → Root V → Except Fault (Leaf V)
  | 0, _ => throw .retries
  | _ + 1, ⟨0, (leaf : Leaf V)⟩ => return leaf
  | attempts + 1, ⟨h + 1, (curr : Node (Sub V h))⟩ => do
    let leaf ← seek d key h curr
    if leaf.keyInRange key then return leaf
    find attempts ⟨h + 1, curr⟩

/-- What a call leaves and answers. -/
def call (fuel : ℕ) (root : Root V) : MapOp ℤ V → Except Fault (Root V × Option V)
  | .insert key value => traverse d (insertEffect d key value) key fuel 0 root
  | .remove key => traverse d (removeEffect d key) key fuel 0 root
  | .contains key => do
    let leaf ← find d key 1000 root
    let bucket ← searchNode d leaf.keys key
    let k ← keyAt d leaf.keys bucket
    if k = key then
      let v ← valueAt d leaf.values bucket
      return (root, some v)
    return (root, none)

/-- Calls one after another, each with a valid key and run to its end. -/
def machine : Machine (Root V) (MapOp ℤ V × ℕ) where
  init root := root = Root.new
  step root a :=
    if INT_MIN < a.1.key ∧ a.1.key < SENTINEL then (call d a.2 root a.1).toOption.map Prod.fst else none

end ObjectCache.Btree.Tree
