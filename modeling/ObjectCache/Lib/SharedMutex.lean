import Mathlib.Data.Finset.Basic
import Mathlib.Tactic.Common

/-! A readers-writer lock over an arbitrary type of threads. -/

namespace ObjectCache.Lib

variable {T : Type*}

/-- The lock is held by one writer or by any number of readers, never both. -/
@[ext] structure SharedMutex (T : Type*) where
  writer : Option T
  readers : Finset T
  exclusive : writer ≠ none → readers = ∅

namespace SharedMutex

def free : SharedMutex T := ⟨none, ∅, fun h => absurd rfl h⟩

instance : Inhabited (SharedMutex T) := ⟨free⟩

def unlock (m : SharedMutex T) : SharedMutex T := ⟨none, m.readers, fun h => absurd rfl h⟩

@[simp] lemma free_writer : (free : SharedMutex T).writer = none := rfl
@[simp] lemma free_readers : (free : SharedMutex T).readers = ∅ := rfl
@[simp] lemma unlock_writer (m : SharedMutex T) : m.unlock.writer = none := rfl
@[simp] lemma unlock_readers (m : SharedMutex T) : m.unlock.readers = m.readers := rfl
lemma not_reader_of_writer {m : SharedMutex T} {s t : T} (hw : m.writer = some s) :
    t ∉ m.readers := by
  rw [m.exclusive (by simp [hw])]
  exact Finset.notMem_empty t

variable [DecidableEq T]

/-- `none` means that the caller blocks. -/
def lockShared (m : SharedMutex T) (t : T) : Option (SharedMutex T) :=
  if h : m.writer = none then some ⟨m.writer, insert t m.readers, fun hw => absurd h hw⟩ else none

def unlockShared (m : SharedMutex T) (t : T) : SharedMutex T :=
  ⟨m.writer, m.readers.erase t, fun hw => by rw [m.exclusive hw]; rfl⟩

def lock (m : SharedMutex T) (t : T) : Option (SharedMutex T) :=
  if m.writer = none ∧ m.readers = ∅ then some ⟨some t, ∅, fun _ => rfl⟩ else none

@[simp] lemma unlockShared_writer (m : SharedMutex T) (t : T) :
    (m.unlockShared t).writer = m.writer := rfl
@[simp] lemma unlockShared_readers (m : SharedMutex T) (t : T) :
    (m.unlockShared t).readers = m.readers.erase t := rfl

lemma lockShared_eq_some {m m' : SharedMutex T} {t : T} :
    m.lockShared t = some m' ↔
      m.writer = none ∧ m'.writer = none ∧ m'.readers = insert t m.readers := by
  unfold lockShared
  split_ifs with h
  · rw [Option.some.injEq, SharedMutex.ext_iff]
    simp [h, eq_comm]
  · simp [h]

lemma lock_eq_some {m m' : SharedMutex T} {t : T} :
    m.lock t = some m' ↔
      m.writer = none ∧ m.readers = ∅ ∧ m'.writer = some t ∧ m'.readers = ∅ := by
  unfold lock
  split_ifs with h
  · rw [Option.some.injEq, SharedMutex.ext_iff]
    simp [h, eq_comm]
  · simp only [false_iff]
    rintro ⟨hw, hr, -⟩
    exact h ⟨hw, hr⟩

/-! ### Who holds it -/

/-- How a thread holds a lock. -/
inductive Hold where
  | none
  | shared
  | exclusive
  deriving DecidableEq

def Holds (m : SharedMutex T) (t : T) : Hold → Prop
  | .none => True
  | .shared => t ∈ m.readers
  | .exclusive => m.writer = some t

/-- What one thread can do to a lock. -/
inductive Moves (t : T) : SharedMutex T → Hold → SharedMutex T → Hold → Prop
  | stay {m h} : Moves t m h m h
  | lockShared {m m'} : m.lockShared t = some m' → Moves t m .none m' .shared
  | unlockShared {m} : Moves t m .shared (m.unlockShared t) .none
  | lock {m m'} : m.lock t = some m' → Moves t m .none m' .exclusive
  | unlock {m} : Moves t m .exclusive m.unlock .none

lemma Moves.holds {m m' : SharedMutex T} {t : T} {h h' : Hold} (hm : Moves t m h m' h')
    (ht : m.Holds t h) : m'.Holds t h' := by
  cases hm with
  | stay => exact ht
  | lockShared hl =>
    obtain ⟨-, -, hr⟩ := lockShared_eq_some.mp hl
    simp [Holds, hr]
  | unlockShared => trivial
  | lock hl => exact (lock_eq_some.mp hl).2.2.1
  | unlock => trivial

/-- A thread does not take the lock from another one that holds it. -/
lemma Moves.frame {m m' : SharedMutex T} {t u : T} {h h' k : Hold} (hm : Moves t m h m' h')
    (ht : m.Holds t h) (hut : u ≠ t) (hu : m.Holds u k) : m'.Holds u k := by
  cases k with
  | none => trivial
  | shared =>
    simp only [Holds] at hu ⊢
    cases hm with
    | stay => exact hu
    | lockShared hl => simp [(lockShared_eq_some.mp hl).2.2, hu]
    | unlockShared => simp [hut, hu]
    | lock hl => simp [(lock_eq_some.mp hl).2.1] at hu
    | unlock => exact hu
  | exclusive =>
    simp only [Holds] at hu ⊢
    cases hm with
    | stay => exact hu
    | lockShared hl => simp [(lockShared_eq_some.mp hl).1] at hu
    | unlockShared => exact hu
    | lock hl => simp [(lock_eq_some.mp hl).1] at hu
    | unlock => exact absurd (Option.some.inj (ht.symm.trans hu)).symm hut

omit [DecidableEq T] in
lemma Holds.eq_of_exclusive {m : SharedMutex T} {t u : T} {k : Hold} (ht : m.Holds t .exclusive)
    (hu : m.Holds u k) (hk : k ≠ .none) : u = t := by
  cases k with
  | none => exact absurd rfl hk
  | shared => exact absurd hu (not_reader_of_writer ht)
  | exclusive => exact Option.some.inj (hu.symm.trans ht)

/-- The writer after a move of one thread. -/
lemma Moves.writer {m m' : SharedMutex T} {t u : T} {h h' : Hold} (hm : Moves t m h m' h')
    (ht : m.Holds t h) (hx : m.writer = some t → h = .exclusive) (hw : m'.writer = some u) :
    (u = t → h' = .exclusive) ∧ (u ≠ t → m.writer = some u) := by
  cases hm with
  | stay => exact ⟨fun hu => hx (hu ▸ hw), fun _ => hw⟩
  | lockShared hl =>
    rw [(lockShared_eq_some.mp hl).2.1] at hw
    cases hw
  | unlockShared => exact absurd ht (not_reader_of_writer hw)
  | lock hl =>
    refine ⟨fun _ => rfl, fun hu => absurd ?_ hu⟩
    rw [(lock_eq_some.mp hl).2.2.1] at hw
    exact (Option.some.inj hw).symm
  | unlock => cases hw

end SharedMutex

end ObjectCache.Lib
