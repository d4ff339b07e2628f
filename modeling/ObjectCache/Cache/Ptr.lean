import Mathlib.Data.BitVec
import Mathlib.Tactic.Common

/-! Remote pointers, their cache mark, and the line a pointer is hashed to. -/

namespace ObjectCache.Cache

/-- `rdma_ptr::raw()`. -/
abbrev Raw := BitVec 64

def mask : Raw := 1#64 <<< 63

def isMarked (p : Raw) : Bool := p &&& mask != 0#64

def markPtr (p : Raw) : Raw := p ||| mask

def unmarkPtr (p : Raw) : Raw := p &&& ~~~mask

@[simp] lemma unmarkPtr_unmarkPtr (p : Raw) : unmarkPtr (unmarkPtr p) = unmarkPtr p := by
  simp [unmarkPtr, BitVec.and_assoc]

@[simp] lemma unmarkPtr_markPtr (p : Raw) : unmarkPtr (markPtr p) = unmarkPtr p := by
  unfold unmarkPtr markPtr
  ext i hi
  simp only [BitVec.getElem_and, BitVec.getElem_or, BitVec.getElem_not]
  cases p[i] <;> cases mask[i] <;> rfl

lemma isMarked_markPtr (p : Raw) : isMarked (markPtr p) = true := by
  have h : (p ||| mask) &&& mask = mask := by
    ext i hi
    simp only [BitVec.getElem_and, BitVec.getElem_or]
    cases p[i] <;> cases mask[i] <;> rfl
  unfold isMarked markPtr
  rw [h]
  decide

lemma isMarked_unmarkPtr (p : Raw) : isMarked (unmarkPtr p) = false := by
  simp [isMarked, unmarkPtr, BitVec.and_assoc]

/-- A pointer without the bit is its own unmarking. -/
lemma unmarkPtr_of_not_isMarked {p : Raw} (h : isMarked p = false) : unmarkPtr p = p := by
  have h0 : p &&& mask = 0#64 := by simpa [isMarked] using h
  have hs : p = (p &&& mask) ||| (p &&& ~~~mask) := by
    ext i hi
    simp only [BitVec.getElem_and, BitVec.getElem_or, BitVec.getElem_not]
    cases p[i] <;> cases mask[i] <;> rfl
  rw [h0, BitVec.zero_or] at hs
  exact hs.symm

/-- An unmarked pointer to an object. -/
structure Ptr where
  raw : Raw
  nonnull : raw ≠ 0#64
  unmarked : isMarked raw = false
  deriving DecidableEq

@[ext] lemma Ptr.ext {p q : Ptr} (h : p.raw = q.raw) : p = q := by
  cases p
  cases q
  cases h
  rfl

@[simp] lemma Ptr.unmarkPtr_raw (p : Ptr) : unmarkPtr p.raw = p.raw :=
  unmarkPtr_of_not_isMarked p.unmarked

/-- The finalizer that `RemoteCacheImpl::hash` and `RdmaIHT::level_hash` share. -/
def mix13 (hashed : BitVec 64) : BitVec 64 :=
  let hashed := hashed ^^^ (hashed >>> 33)
  let hashed := hashed * 0xff51afd7ed558ccd#64
  let hashed := hashed ^^^ (hashed >>> 33)
  let hashed := hashed * 0xc4ceb9fe1a85ec53#64
  hashed ^^^ (hashed >>> 33)

/-- The lowest address a pointer to an aligned object can have. -/
def Ptr.first : Ptr := ⟨64#64, by decide, by decide⟩

/-- What `hash` reads besides the pointer. `id` and `address` are `rdma_ptr`'s own; `offset` is
the double-precision product of the line count over the node count with the id. -/
structure Geometry where
  number_of_lines : ℕ
  id : Raw → BitVec 64
  address : Raw → BitVec 64
  offset : BitVec 64 → BitVec 64

def hash (g : Geometry) (p : Ptr) : ℕ :=
  (mix13 (g.address p.raw / 64#64) + g.offset (g.id p.raw)).toNat % g.number_of_lines

end ObjectCache.Cache
