import ObjectCache.Btree.Slots

/-! The blocks of `ShermanBPTree`. Keys, values and pointers are laid out over 64-byte lines with a
version each; the slots are numbered through. -/

namespace ObjectCache.Sherman

open Btree

structure BRoot (A : Type) where
  lock : BitVec 64
  height : ℤ
  start : Option A
  deriving DecidableEq

/-- An inner node. Line 0 of `key_version` carries the lock bit. -/
@[ext]
structure BNode (A : Type) where
  key_version : ℕ → BitVec 64
  ptr_version : ℕ → BitVec 64
  fency_version : BitVec 64
  keys : Slots Key
  ptrs : Slots (Option A)
  height : ℤ
  key_low : Key
  key_high : Key
  is_deleted : Bool

@[ext]
structure BLeaf (A V : Type) where
  key_version : ℕ → BitVec 64
  value_version : ℕ → BitVec 64
  last_version : BitVec 64
  keys : Slots Key
  values : Slots V
  key_low : Key
  key_high : Key
  next : Option A
  is_deleted : Bool

variable {A V : Type}

namespace BRoot

def incrementVersion (r : BRoot A) : BRoot A := { r with lock := (r.lock &&& ~~~LOCK_BIT) + 1 }

def setStartAndInc (r : BRoot A) (start : A) : BRoot A :=
  { r with start := some start, height := r.height + 1 }

end BRoot

/-- The lines of a block's keys after `increment_version`, which also unlocks. -/
def incrementFirst (version : ℕ → BitVec 64) : ℕ → BitVec 64 :=
  fun i => if i = 0 then (version 0 &&& ~~~LOCK_BIT) + 1 else version i + 1

namespace BNode

/-- `BNode()`. -/
def new : BNode A where
  key_version _ := 0
  ptr_version _ := 0
  fency_version := 0
  keys _ := SENTINEL
  ptrs _ := none
  height := -1
  key_low := INT_MIN
  key_high := SENTINEL
  is_deleted := false

def setRange (n : BNode A) (key_low key_high : Key) : BNode A := { n with key_low, key_high }

def setLevel (n : BNode A) (level : ℤ) : BNode A := { n with height := level }

def setKey (n : BNode A) (i : ℕ) (key : Key) : BNode A :=
  { n with keys := Function.update n.keys i key }

def setPtr (n : BNode A) (i : ℕ) (ptr : A) : BNode A :=
  { n with ptrs := Function.update n.ptrs i (some ptr) }

def incrementVersion (n : BNode A) : BNode A :=
  { n with
    key_version := incrementFirst n.key_version
    ptr_version := fun i => n.ptr_version i + 1
    fency_version := n.fency_version + 1 }

/-- `shift_up`. -/
def shiftUp (degree : ℕ) (n : BNode A) (index : ℕ) : BNode A :=
  { n with
    keys := Btree.shiftUp (index + 1) (SIZE degree) n.keys
    ptrs := Btree.shiftUp (index + 2) (SIZE degree + 1) n.ptrs }

end BNode

namespace BLeaf

variable [IntCast V]

/-- `BLeaf()`. -/
def new : BLeaf A V where
  key_version _ := 0
  value_version _ := 0
  last_version := 0
  keys _ := SENTINEL
  values _ := (0 : ℤ)
  key_low := INT_MIN
  key_high := SENTINEL
  next := none
  is_deleted := false

omit [IntCast V]

def setRange (l : BLeaf A V) (key_low key_high : Key) : BLeaf A V := { l with key_low, key_high }

def setNext (l : BLeaf A V) (next : Option A) : BLeaf A V := { l with next }

def incrementVersion (l : BLeaf A V) : BLeaf A V :=
  { l with
    key_version := incrementFirst l.key_version
    value_version := fun i => l.value_version i + 1
    last_version := l.last_version + 1 }

def lock (l : BLeaf A V) : BLeaf A V :=
  { l with key_version := Function.update l.key_version 0 (l.key_version 0 ||| LOCK_BIT) }

end BLeaf

end ObjectCache.Sherman
