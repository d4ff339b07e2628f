import Mathlib.Logic.Function.Basic
import Mathlib.Data.Int.Init
import Mathlib.Tactic.Common

/-! The slots of a tree node, and the routines on them that `RdmaBPTree` and `ShermanBPTree` share.
A node holds `SIZE` keys and values and `SIZE + 1` pointers; a free key slot holds `SENTINEL`. -/

namespace ObjectCache.Btree

/-- `int32_t`. -/
abbrev Key := ℤ

def INT_MIN : Key := -2147483648

/-- `INT_MAX`. -/
def SENTINEL : Key := 2147483647

def LOCK_BIT : BitVec 64 := 1#64 <<< 63

def SIZE (degree : ℕ) : ℕ := degree * 2 + 1

abbrev Slots (α : Type) := ℕ → α

variable {α σ : Type}

/-- `for (i = lo; i < hi; i++)`. -/
def forUp (lo hi : ℕ) (f : ℕ → σ → σ) (s : σ) : σ :=
  (List.range' lo (hi - lo)).foldl (fun s i => f i s) s

/-- `for (i = hi - 1; i >= lo; i--)`. -/
def forDown (lo hi : ℕ) (f : ℕ → σ → σ) (s : σ) : σ :=
  (List.range' lo (hi - lo)).foldr f s

/-- The loop of `search_node`; it takes less than `SIZE` rounds. -/
def searchLoop (keys : Slots Key) (key : Key) : ℕ → ℕ → ℕ → ℕ
  | 0, low, _ => low
  | fuel + 1, low, high =>
    if low = high then low
    else
      let mid := (low + high) / 2
      if key = keys mid then mid
      else if key < keys mid then searchLoop keys key fuel low mid
      else searchLoop keys key fuel (mid + 1) high

/-- No slot stands for -1. -/
def searchNode (degree : ℕ) (keys : Slots Key) (key : Key) : Option ℕ :=
  if keys (SIZE degree - 1) < key then none
  else some (searchLoop keys key (SIZE degree) 0 (SIZE degree - 1))

/-- The key for the parent, the keys that stay and the keys that move. -/
def splitKeys (degree : ℕ) (full empty : Slots Key) (no_persist : Bool) :
    Key × Slots Key × Slots Key :=
  let ret := full degree
  let (full, empty) := forUp 0 (SIZE degree) (fun i (full, empty) =>
    if i < degree then
      (Function.update full (degree + i + 1) SENTINEL,
        Function.update empty i (full (degree + i + 1)))
    else (full, Function.update empty i SENTINEL)) (full, empty)
  (ret, if no_persist then Function.update full degree SENTINEL else full, empty)

def splitValues {V : Type} [IntCast V] (degree : ℕ) (full empty : Slots V) : Slots V × Slots V :=
  forUp 0 (SIZE degree) (fun i (full, empty) =>
    if i < degree then
      (Function.update full (degree + i + 1) (SENTINEL : V),
        Function.update empty i (full (degree + i + 1)))
    else (full, Function.update empty i (SENTINEL : V))) (full, empty)

def splitPtrs {A : Type} (degree : ℕ) (full empty : Slots (Option A)) :
    Slots (Option A) × Slots (Option A) :=
  forUp 0 (SIZE degree + 1) (fun i (full, empty) =>
    if i ≤ degree then
      (Function.update full (degree + i + 1) none,
        Function.update empty i (full (degree + i + 1)))
    else (full, Function.update empty i none)) (full, empty)

/-- `shift_up`, on keys with `lo = index + 1` and `hi = SIZE`, on pointers one further. -/
def shiftUp (lo hi : ℕ) (s : Slots α) : Slots α :=
  forDown lo hi (fun i s => Function.update s i (s (i - 1))) s

/-- The two loops of `shift_down`: every slot from `lo` on takes its successor's content. -/
def shiftDown (lo hi : ℕ) (s : Slots α) : Slots α :=
  forUp lo hi (fun i s => Function.update s i (s (i + 1))) s

end ObjectCache.Btree
