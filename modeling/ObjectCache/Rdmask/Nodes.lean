import ObjectCache.Lib.FiniteMap
import ObjectCache.Lib.Transition
import Mathlib.Order.Lattice

/-! The nodes of `RdmaSkipList`: pointers with their two marks, and a memory that remembers what every node has
ever held, so that a read through the caches may return any of it. -/

set_option linter.unusedSectionVars false

namespace ObjectCache.Rdmask

/-- An `rdma_ptr` to a node, with the bit of the cache protocol and the bit of a link that is deleted. -/
structure Ptr (A : Type) where
  address : Option A
  cached : Bool
  deleted : Bool
  deriving DecidableEq

variable {A K V W : Type}

namespace Ptr

def null : Ptr A := ⟨none, false, false⟩

def sans (p : Ptr A) : Ptr A := { p with deleted := false }

def marked_del (p : Ptr A) : Ptr A := { p with deleted := true }

end Ptr

structure Node (A K V : Type) where
  value : V
  key : K
  height : ℕ
  link_level : ℕ
  next : ℕ → Ptr A

/-- `DELETE_SENTINEL` and `UNLINK_SENTINEL`; `root_height` and `root_link_level` are what `InitAsFirst` leaves as
the allocation has it. -/
structure Config (A K V T : Type) where
  max_height : ℕ
  tall : 2 ≤ max_height
  min_key : K
  delete_sentinel : V
  unlink_sentinel : V
  distinct : delete_sentinel ≠ unlink_sentinel
  zero : V
  root : A
  root_height : ℕ
  root_link_level : ℕ
  cache_floor : T → ℕ
  is_helper : T → Bool

/-- What every node has held, the latest first. -/
structure Memory (A K V : Type) where
  log : A → List (Node A K V)

/-- Which of the contents of a node each word of it is read from. -/
structure Version where
  value : ℕ
  link_level : ℕ
  next : ℕ → ℕ

/-- A `CachedObject`: the pointer that was read and what it gave. -/
structure Obj (A K V : Type) where
  remote_origin : Ptr A
  node : Node A K V

def Version.latest : Version := ⟨0, 0, fun _ => 0⟩

namespace Memory

variable [DecidableEq A]

/-- `cache->Read`; nothing where it would follow a null pointer. -/
def read (m : Memory A K V) (p : Ptr A) (v : Version) : Option (Obj A K V) :=
  match p.address with
  | none => none
  | some a =>
    match m.log a with
    | [] => none
    | n :: ns => some ⟨p, {
        value := ((n :: ns).getD v.value n).value
        key := n.key
        height := n.height
        link_level := ((n :: ns).getD v.link_level n).link_level
        next := fun h => ((n :: ns).getD (v.next h) n).next h }⟩

def store (m : Memory A K V) (a : A) (n : Node A K V) : Memory A K V :=
  ⟨Function.update m.log a (n :: m.log a)⟩

/-- `CompareAndSwap` on a word of the node at a pointer, with the word that it found. -/
def cas [DecidableEq W] (m : Memory A K V) (p : Ptr A) (get : Node A K V → W)
    (set : Node A K V → W → Node A K V) (old new : W) : Option (W × Memory A K V) :=
  match p.address with
  | none => none
  | some a =>
    match m.log a with
    | [] => none
    | n :: _ => some (get n, if get n = old then m.store a (set n new) else m)

/-- At `get_value_ptr`. -/
def casValue [DecidableEq V] (m : Memory A K V) (p : Ptr A) (old new : V) : Option (V × Memory A K V) :=
  m.cas p Node.value (fun n w => { n with value := w }) old new

/-- At `get_link_height_ptr`. -/
def casLink (m : Memory A K V) (p : Ptr A) (old new : ℕ) : Option (ℕ × Memory A K V) :=
  m.cas p Node.link_level (fun n w => { n with link_level := w }) old new

/-- At `get_level_ptr`. -/
def casNext (m : Memory A K V) (p : Ptr A) (level : ℕ) (old new : Ptr A) : Option (Ptr A × Memory A K V) :=
  m.cas p (fun n => n.next level) (fun n w => { n with next := Function.update n.next level w }) old new

end Memory

end ObjectCache.Rdmask
