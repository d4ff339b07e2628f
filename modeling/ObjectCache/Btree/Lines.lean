import ObjectCache.Btree.Slots
import Mathlib.Algebra.Group.Nat.Defs

/-! The blocks of `RdmaBPTree` as 64-byte lines. Every line starts with a version; the version of a
block's first line doubles as its lock word. -/

namespace ObjectCache.Btree

/-- A version and the 56 bytes behind it. -/
@[ext]
structure Line (D : Type) where
  version : BitVec 64
  data : D

/-- `hline` behind its version. -/
@[ext]
structure Tail (A V : Type) where
  values : Slots V
  key_low : Key
  key_high : Key
  next : Option A

def KLINE_SIZE : ℕ := 14

def PLINE_SIZE : ℕ := 7

/-- `VLINE_SIZE`, for values of `size` bytes. -/
def VLINE_SIZE (size : ℕ) : ℕ := 56 / size

def HLINE_SIZE (size : ℕ) : ℕ := 40 / size

def KLINES (degree : ℕ) : ℕ := (SIZE degree + KLINE_SIZE) / KLINE_SIZE

def PLINES (degree : ℕ) : ℕ := (SIZE degree + 1 + PLINE_SIZE) / PLINE_SIZE

/-- `VLINES`, for a tail line with room for `room` values. -/
def VLINES (degree size room : ℕ) : ℕ := (SIZE degree + VLINE_SIZE size - room) / VLINE_SIZE size

/-- `version & ~LOCK_BIT`. -/
def unlocked (version : BitVec 64) : BitVec 64 := version &&& ~~~LOCK_BIT

/-- The base version of `is_valid`. -/
def base (version : BitVec 64) (ignore_lock : Bool) : BitVec 64 :=
  if ignore_lock then unlocked version else version

/-- `for (i = lo; i < hi; i++) if (version(i) != base) return false;` -/
def allAt (lo hi : ℕ) (version : ℕ → BitVec 64) (base : BitVec 64) : Bool :=
  (List.range' lo (hi - lo)).all fun i => version i = base

@[ext]
structure BNode (A : Type) where
  key_lines : ℕ → Line (Slots Key)
  ptr_lines : ℕ → Line (Slots (Option A))

@[ext]
structure BLeaf (A V : Type) where
  key_lines : ℕ → Line (Slots Key)
  value_lines : ℕ → Line (Slots V)
  last_line : Line (Tail A V)

variable {A V D : Type}

/-- `version++` on a line. -/
def Line.increment (l : Line D) : Line D := { l with version := l.version + 1 }

/-- The lines of the keys after `increment_version`, which also unlocks. -/
def incrementKeys (lines : ℕ → Line (Slots Key)) : ℕ → Line (Slots Key) := fun i =>
  if i = 0 then { lines 0 with version := unlocked (lines 0).version + 1 } else (lines i).increment

namespace BNode

def keyAt (n : BNode A) (index : ℕ) : Key :=
  (n.key_lines (index / KLINE_SIZE)).data (index % KLINE_SIZE)

def isValid (degree : ℕ) (n : BNode A) (ignore_lock : Bool) : Bool :=
  let base := base (n.key_lines 0).version ignore_lock
  allAt 0 (KLINES degree) (fun i => (n.key_lines i).version) base &&
    allAt 0 (PLINES degree) (fun i => (n.ptr_lines i).version) base

/-- The version without the lock bit. -/
def version (n : BNode A) : BitVec 64 := unlocked (n.key_lines 0).version

def incrementVersion (n : BNode A) : BNode A where
  key_lines := incrementKeys n.key_lines
  ptr_lines i := (n.ptr_lines i).increment

end BNode

namespace BLeaf

def keyAt (l : BLeaf A V) (index : ℕ) : Key :=
  (l.key_lines (index / KLINE_SIZE)).data (index % KLINE_SIZE)

/-- For values of `size` bytes. -/
def isValid (degree size : ℕ) (l : BLeaf A V) (ignore_lock : Bool) : Bool :=
  let base := base (l.key_lines 0).version ignore_lock
  allAt 1 (KLINES degree) (fun i => (l.key_lines i).version) base &&
    allAt 0 (VLINES degree size (HLINE_SIZE size)) (fun i => (l.value_lines i).version) base &&
    l.last_line.version = base

def version (l : BLeaf A V) : BitVec 64 := unlocked (l.key_lines 0).version

def incrementVersion (l : BLeaf A V) : BLeaf A V where
  key_lines := incrementKeys l.key_lines
  value_lines i := (l.value_lines i).increment
  last_line := l.last_line.increment

end BLeaf

/-! ### The lock bit -/

@[simp]
lemma unlocked_unlocked (v : BitVec 64) : unlocked (unlocked v) = unlocked v := by
  rw [unlocked, unlocked, BitVec.and_assoc, BitVec.and_self]

lemma toNat_unlocked (v : BitVec 64) : (unlocked v).toNat = v.toNat % 2 ^ 63 := by
  have hmask : (~~~LOCK_BIT).toNat = 2 ^ 63 - 1 := by decide
  rw [unlocked, BitVec.toNat_and, hmask, Nat.and_two_pow_sub_one_eq_mod]

lemma toNat_unlocked_lt (v : BitVec 64) : (unlocked v).toNat < 2 ^ 63 := by
  rw [toNat_unlocked]
  exact Nat.mod_lt _ (by decide)

lemma unlocked_eq_self {v : BitVec 64} : unlocked v = v ↔ v.toNat < 2 ^ 63 := by
  constructor
  · intro h
    have hlt := toNat_unlocked_lt v
    rwa [h] at hlt
  · intro h
    apply BitVec.eq_of_toNat_eq
    rw [toNat_unlocked, Nat.mod_eq_of_lt h]

lemma allAt_eq_true {lo hi : ℕ} {version : ℕ → BitVec 64} {base : BitVec 64} :
    allAt lo hi version base = true ↔ ∀ i, lo ≤ i → i < hi → version i = base := by
  simp only [allAt, List.all_eq_true, List.mem_range'_1, decide_eq_true_eq]
  constructor
  · intro h i hlo hhi
    exact h i ⟨hlo, by omega⟩
  · intro h i hi
    exact h i hi.1 (by omega)

lemma KLINES_pos (degree : ℕ) : 0 < KLINES degree := by
  simp only [KLINES, KLINE_SIZE]
  omega

end ObjectCache.Btree
