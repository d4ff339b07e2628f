import ObjectCache.Btree.Slots
import ObjectCache.Lib.Fallible

/-! The nodes of `RdmaBPTree` and the routines on one or two of them, with every index checked against
its array. -/

namespace ObjectCache.Btree.Tree

open Lib

/-- What stops a call: an index outside its array, a null pointer, `it_counter` at its limit. A loop
that has not come to its end within its rounds is out of fuel. -/
inductive Fault where
  | index
  | null
  | retries
  | fuel
  deriving DecidableEq

structure Node (A : Type) where
  keys : Slots ℤ
  ptrs : Slots (Option A)

structure Leaf (V : Type) where
  keys : Slots ℤ
  values : Slots V
  key_low : ℤ
  key_high : ℤ

variable {α A V : Type} (d : ℕ)

def load (bound : ℕ) (s : Slots α) (index : ℤ) : Except Fault α :=
  if 0 ≤ index ∧ index < bound then .ok (s index.toNat) else .error .index

def store (bound : ℕ) (s : Slots α) (index : ℤ) (x : α) : Except Fault (Slots α) :=
  if 0 ≤ index ∧ index < bound then .ok (Function.update s index.toNat x) else .error .index

def keyAt (keys : Slots ℤ) (index : ℤ) : Except Fault ℤ := load (SIZE d) keys index

def valueAt (values : Slots V) (index : ℤ) : Except Fault V := load (SIZE d) values index

def ptrAt (ptrs : Slots (Option A)) (index : ℤ) : Except Fault (Option A) := load (SIZE d + 1) ptrs index

def Node.setKey (n : Node A) (index : ℤ) (key : ℤ) : Except Fault (Node A) := do
  let keys ← store (SIZE d) n.keys index key
  return { n with keys }

def Node.setPtr (n : Node A) (index : ℤ) (ptr : Option A) : Except Fault (Node A) := do
  let ptrs ← store (SIZE d + 1) n.ptrs index ptr
  return { n with ptrs }

def Leaf.setKey (l : Leaf V) (index : ℤ) (key : ℤ) : Except Fault (Leaf V) := do
  let keys ← store (SIZE d) l.keys index key
  return { l with keys }

def Leaf.setValue (l : Leaf V) (index : ℤ) (value : V) : Except Fault (Leaf V) := do
  let values ← store (SIZE d) l.values index value
  return { l with values }

def Leaf.keyInRange (l : Leaf V) (key : ℤ) : Bool := l.key_low < key && key ≤ l.key_high

def Leaf.setRange (l : Leaf V) (key_low key_high : ℤ) : Leaf V := { l with key_low, key_high }

/-- `BNode()`. -/
def Node.new : Node A := ⟨fun _ => SENTINEL, fun _ => none⟩

/-- `BLeaf()`. -/
def Leaf.new [IntCast V] : Leaf V := ⟨fun _ => SENTINEL, fun _ => (0 : ℤ), INT_MIN, SENTINEL⟩

/-! ### Search -/

def searchLoop (keys : Slots ℤ) (key : ℤ) : ℕ → ℕ → ℕ → Except Fault ℤ
  | 0, _, _ => .error .fuel
  | rounds + 1, low, high =>
    if low = high then .ok low
    else do
      let mid := (low + high) / 2
      let k ← keyAt d keys mid
      if key = k then return mid
      else if key < k then searchLoop keys key rounds low mid
      else searchLoop keys key rounds (mid + 1) high

def searchNode (keys : Slots ℤ) (key : ℤ) : Except Fault ℤ := do
  let last ← keyAt d keys (SIZE d - 1 : ℕ)
  if last < key then return -1
  searchLoop d keys key (SIZE d) 0 (SIZE d - 1)

/-! ### Splits -/

/-- The loop that `split_keys`, `split_values` and `split_ptrs` share: what is behind the first `d + 1`
slots moves, and `free` marks the slots that are not used. -/
def moveHalf (bound moved : ℕ) (free : α) (full empty : Slots α) : Except Fault (Slots α × Slots α) :=
  loopUp (fun i (s : Slots α × Slots α) =>
    if i < moved then do
      let x ← load bound s.1 (d + i + 1 : ℕ)
      let empty ← store bound s.2 i x
      let full ← store bound s.1 (d + i + 1 : ℕ) free
      return (full, empty)
    else do
      let empty ← store bound s.2 i free
      return (s.1, empty)) bound 0 (full, empty)

/-- The key for the parent, the keys that stay and the keys that move. -/
def splitKeys (full empty : Slots ℤ) (no_persist : Bool) :
    Except Fault (ℤ × Slots ℤ × Slots ℤ) := do
  let ret ← keyAt d full d
  let s ← moveHalf d (SIZE d) d SENTINEL full empty
  if no_persist then
    let full ← store (SIZE d) s.1 d SENTINEL
    return (ret, full, s.2)
  return (ret, s.1, s.2)

def splitValues [IntCast V] (full empty : Slots V) : Except Fault (Slots V × Slots V) :=
  moveHalf d (SIZE d) d (SENTINEL : V) full empty

def splitPtrs (full empty : Slots (Option A)) : Except Fault (Slots (Option A) × Slots (Option A)) :=
  moveHalf d (SIZE d + 1) (d + 1) none full empty

/-- The separator, what stays in the node and its new neighbour. -/
def Node.halve (n : Node A) : Except Fault (ℤ × Node A × Node A) := do
  let k ← splitKeys d n.keys (new : Node A).keys true
  let p ← splitPtrs d n.ptrs (new : Node A).ptrs
  return (k.1, ⟨k.2.1, p.1⟩, ⟨k.2.2, p.2⟩)

def Leaf.halve [IntCast V] (l : Leaf V) : Except Fault (ℤ × Leaf V × Leaf V) := do
  let k ← splitKeys d l.keys (new : Leaf V).keys false
  let v ← splitValues d l.values (new : Leaf V).values
  return (k.1, ⟨k.2.1, v.1, l.key_low, k.1⟩, ⟨k.2.2, v.2, k.1, l.key_high⟩)

/-! ### Shifts -/

/-- `for (i = bound - 1; i > index; i--)`: every slot takes what is before it. -/
def raise (bound : ℕ) (index : ℤ) (s : Slots α) : Except Fault (Slots α) :=
  loopDown (fun i s => do
    let x ← load bound s (i - 1)
    store bound s i x) (index + 1).toNat (bound - (index + 1).toNat) s

/-- `for (i = index; i < bound - 1; i++)`: every slot takes what is behind it. -/
def lower (bound index : ℕ) (s : Slots α) : Except Fault (Slots α) :=
  loopUp (fun i s => do
    let x ← load bound s (i + 1)
    store bound s i x) (bound - 1 - index) index s

def shiftUp (n : Node A) (index : ℤ) : Except Fault (Node A) := do
  let keys ← raise (SIZE d) index n.keys
  let ptrs ← raise (SIZE d + 1) (index + 1) n.ptrs
  return ⟨keys, ptrs⟩

/-- The key that is overwritten, and the node. -/
def shiftDown (n : Node A) (index : ℤ) : Except Fault (ℤ × Node A) := do
  let original_key ← keyAt d n.keys index
  let keys ← lower (SIZE d) index.toNat n.keys
  let keys ← store (SIZE d) keys (SIZE d - 1 : ℕ) SENTINEL
  let ptrs ← lower (SIZE d + 1) (index.toNat + 1) n.ptrs
  let ptrs ← store (SIZE d + 1) ptrs (SIZE d) none
  return (original_key, ⟨keys, ptrs⟩)

/-- A separator and the node behind it, entered into the parent. -/
def Node.enter (parent : Node A) (to_parent : ℤ) (new_neighbor : A) : Except Fault (Node A) := do
  let bucket ← searchNode d parent.keys to_parent
  let parent ← shiftUp d parent bucket
  let parent ← parent.setKey d bucket to_parent
  parent.setPtr d (bucket + 1) (some new_neighbor)

/-! ### Merges -/

/-- `while (key_at(size) != SENTINEL) size++`. -/
def firstFree (keys : Slots ℤ) : ℕ → ℕ → Except Fault ℕ
  | 0, _ => .error .fuel
  | rounds + 1, size => do
    let k ← keyAt d keys size
    if k = SENTINEL then return size
    firstFree keys rounds (size + 1)

/-- The last loop of `merge_node`. -/
def appendNode (two : Node A) : ℕ → ℕ → ℕ → Node A → Except Fault (Node A)
  | 0, _, _, one => .ok one
  | rounds + 1, i, size_one, one => do
    let k ← keyAt d two.keys i
    if k = SENTINEL then return one
    let one ← one.setKey d size_one k
    let p ← ptrAt d two.ptrs (i + 1)
    let one ← one.setPtr d (size_one + 1) p
    appendNode two rounds (i + 1) (size_one + 1) one

/-- `merge_node` after the swap: the node at `bucket_one` takes in its right neighbour. The parent still
has the old node at `bucket_one`. -/
def mergeNode {B : Type} (one two : Node A) (bucket_one : ℤ) (parent : Node B) :
    Except Fault (Node A × Node B) := do
  let s ← shiftDown d parent bucket_one
  let size_one ← firstFree d one.keys (SIZE d + 1) 0
  let one ← one.setKey d size_one s.1
  let p ← ptrAt d two.ptrs 0
  let one ← one.setPtr d (size_one + 1) p
  let one ← appendNode d two (SIZE d) 0 (size_one + 1) one
  return (one, s.2)

/-- The loop of `merge_leaf`. -/
def appendLeaf (two : Leaf V) : ℕ → ℕ → ℕ → Leaf V → Except Fault (Leaf V)
  | 0, _, _, one => .ok one
  | rounds + 1, i, size_one, one => do
    let k ← keyAt d two.keys i
    if k = SENTINEL then return one
    let size_one ← firstFree d one.keys (SIZE d + 1) size_one
    let one ← one.setKey d size_one k
    let v ← valueAt d two.values i
    let one ← one.setValue d size_one v
    appendLeaf two rounds (i + 1) size_one one

/-- `merge_leaf` after the swap. -/
def mergeLeaf (one two : Leaf V) (bucket_one : ℤ) (parent : Node A) : Except Fault (Leaf V × Node A) := do
  let one := one.setRange one.key_low two.key_high
  let one ← appendLeaf d two (SIZE d) 0 0 one
  let s ← shiftDown d parent bucket_one
  return (one, s.2)

/-! ### The effects of `insert` and `remove` -/

/-- The new leaf, and the value that was there. -/
abbrev Effect (V : Type) := Leaf V → ℤ → Except Fault (Leaf V × Option V)

def insertEffect (key : ℤ) (value : V) : Effect V := fun l bucket => do
  let k ← keyAt d l.keys bucket
  if k = key then
    let v ← valueAt d l.values bucket
    return (l, some v)
  let values ← raise (SIZE d) bucket l.values
  let keys ← raise (SIZE d) bucket l.keys
  let l ← ({ l with keys, values } : Leaf V).setKey d bucket key
  let l ← l.setValue d bucket value
  return (l, none)

def removeEffect (key : ℤ) : Effect V := fun l bucket => do
  let k ← keyAt d l.keys bucket
  if k = key then
    let v ← valueAt d l.values bucket
    -- the source counts from `bucket + 1` and names the slot before
    let keys ← lower (SIZE d) bucket.toNat l.keys
    let values ← lower (SIZE d) bucket.toNat l.values
    let l ← ({ l with keys, values } : Leaf V).setKey d (SIZE d - 1 : ℕ) SENTINEL
    return (l, some v)
  return (l, none)

end ObjectCache.Btree.Tree
