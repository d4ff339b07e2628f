import ObjectCache.Lib.Transition
import ObjectCache.Lib.SharedMutex
import ObjectCache.Cache.Ptr
import Mathlib.Data.Fintype.Basic
import Mathlib.Data.Finset.Card

/-! The buffers of one node's cache: who counts the references to them and who gives them back,
one shared-memory access at a time. Buffers are numbered in the order in which they are fetched. -/

namespace ObjectCache.Cache.Buffers

open Lib

/-- A reference counter, made for a line by the constructor or later by `ref_generator`. -/
inductive Ref where
  | line (i : ℕ)
  | generated (n : ℕ)
  deriving DecidableEq

structure CacheLine (T : Type) where
  address : Raw
  mu : SharedMutex T
  priority : ℤ
  local_ptr : Option ℕ
  size : ℕ
  ref_counter : Ref

/-- Also the arguments of `handle_free`. -/
structure DeallocTask where
  local_ptr : Option ℕ
  size : ℕ
  ref_counter : Ref
  deriving DecidableEq

/-- What a read returns a pointer to: a buffer it has allocated, or the one its caller passed. -/
inductive Buffer where
  | fetched (b : ℕ)
  | prealloc (n : ℕ)
  deriving DecidableEq

/-- `empty` is a default-constructed, moved-from or destroyed object. The deallocator of `temp` has
captured the result and the preallocated buffer. -/
inductive CachedObject where
  | empty
  | counted (obj : Option ℕ) (ref_count : Ref)
  | temp (obj : Buffer) (prealloc : Option ℕ)
  deriving DecidableEq

/-- The arguments of `ExtendedRead`; `bytes` is `size * sizeof(T)`. -/
structure Request where
  ptr : Ptr
  marked : Bool
  bytes : ℕ
  prealloc : Option ℕ
  priority : ℤ

inductive Miss where
  | coherence
  | conflict
  deriving DecidableEq

inductive Pc where
  | idle
  | tryFree (q : Request)
  | freeTask (q : Request) (task : DeallocTask)
  | lockShared (q : Request)
  | compare (q : Request)
  | testBit (q : Request)
  | hit (q : Request)
  | testPriority (q : Request)
  | unlockBypass (q : Request)
  | bypass (q : Request)
  | original (q : Request)
  | unlockMiss (q : Request) (miss : Miss) (original : Raw)
  | lock (q : Request) (miss : Miss) (original : Raw)
  | recheck (q : Request) (miss : Miss) (original : Raw)
  | unlockRetry (q : Request)
  | clearLoad (q : Request)
  | clearStore (q : Request) (loaded : Raw)
  | swap (q : Request)
  | fetch (q : Request) (miss : Miss)
  | decrement (q : Request) (miss : Miss) (data : ℕ)
  | testZero (q : Request) (miss : Miss) (data : ℕ) (old : DeallocTask)
  | freeOld (q : Request) (miss : Miss) (data : ℕ) (old : DeallocTask)
  | install (q : Request) (miss : Miss) (data : ℕ)
  | increment (q : Request) (result : Option ℕ) (ref : Ref) (acquired_wlock : Bool)
  | unlock (q : Request) (result : Option ℕ) (ref : Ref) (acquired_wlock : Bool)

/-- What is not in a line: the counters, the thread-local pools and the callers' objects. -/
structure Store (T : Type) where
  counter : Ref → ℤ
  /-- How many counters and how many buffers have been made. -/
  next_ref : ℕ
  next_buffer : ℕ
  /-- The buffers given to `Deallocate`, latest first. -/
  deallocations : List ℕ
  reference_pool : T → List Ref
  dealloc_pool : T → List DeallocTask
  /-- Every `CachedObject` of the callers, in the order of construction. -/
  objects : List CachedObject

structure State (T : Type) where
  lines : ℕ → CacheLine T
  pc : T → Pc
  store : Store T

/-- `invalidate` is a peer's compare-and-swap or the invalidation of another thread. -/
inductive Act (T : Type) where
  | read (t : T) (q : Request)
  | next (t : T)
  | invalidate (i : ℕ)
  | construct
  | moveConstruct (k : ℕ)
  | moveAssign (k j : ℕ)
  | destroy (k : ℕ)

variable {T : Type} [DecidableEq T]

def Request.index (g : Geometry) (q : Request) : ℕ := hash g q.ptr

/-- Where a read goes once it has tried to free. -/
def Request.enter (q : Request) : Pc := if q.marked then .lockShared q else .bypass q

/-- One access to a line that concerns its lock, address or size only. -/
def lineStep (t : T) (l : CacheLine T) : Pc → Option (CacheLine T × Pc)
  | .lockShared q => (l.mu.lockShared t).map fun mu => ({ l with mu }, .compare q)
  | .compare q => some (l, if unmarkPtr l.address = q.ptr.raw then .testBit q else .testPriority q)
  | .testBit q =>
    some (l, if isMarked l.address then .unlockMiss q .coherence (unmarkPtr l.address) else .hit q)
  | .hit q =>
    if l.size = q.bytes then some (l, .increment q l.local_ptr l.ref_counter false) else none
  | .testPriority q => some (l, if l.priority < q.priority then .unlockBypass q else .original q)
  | .unlockBypass q => some ({ l with mu := l.mu.unlockShared t }, .bypass q)
  | .original q => some (l, .unlockMiss q .conflict (unmarkPtr l.address))
  | .unlockMiss q miss original =>
    some ({ l with mu := l.mu.unlockShared t }, .lock q miss original)
  | .lock q miss original => (l.mu.lock t).map fun mu => ({ l with mu }, .recheck q miss original)
  | .recheck q miss original =>
    some (l, if unmarkPtr l.address ≠ original then .unlockRetry q
      else match miss with
        | .coherence => .clearLoad q
        | .conflict => .swap q)
  | .unlockRetry q => some ({ l with mu := l.mu.unlock }, .lockShared q)
  | .clearLoad q => some (l, .clearStore q l.address)
  | .clearStore q loaded => some ({ l with address := unmarkPtr loaded }, .fetch q .coherence)
  | .swap q => some ({ l with address := q.ptr.raw }, .fetch q .conflict)
  | _ => none

/-- The request of a thread that is about to take a `lineStep`. -/
def Pc.lineRequest : Pc → Option Request
  | .lockShared q | .compare q | .testBit q | .hit q | .testPriority q | .unlockBypass q
  | .original q | .unlockMiss q _ _ | .lock q _ _ | .recheck q _ _ | .unlockRetry q | .clearLoad q
  | .clearStore q _ | .swap q => some q
  | _ => none

namespace Store

def setCounter (s : Store T) (ref : Ref) (n : ℤ) : Store T :=
  { s with counter := Function.update s.counter ref n }

def setDeallocPool (s : Store T) (t : T) (tasks : List DeallocTask) : Store T :=
  { s with dealloc_pool := Function.update s.dealloc_pool t tasks }

def setReferencePool (s : Store T) (t : T) (refs : List Ref) : Store T :=
  { s with reference_pool := Function.update s.reference_pool t refs }

def setObject (s : Store T) (k : ℕ) (o : CachedObject) : Store T :=
  { s with objects := s.objects.set k o }

def construct (s : Store T) (o : CachedObject) : Store T := { s with objects := s.objects ++ [o] }

def deallocate (s : Store T) : Option ℕ → Store T
  | none => s
  | some b => { s with deallocations := b :: s.deallocations }

def countBuffer (s : Store T) : Store T := { s with next_buffer := s.next_buffer + 1 }

/-- `reference_pool.release`. -/
def releaseRef (s : Store T) (t : T) (ref : Ref) : Store T :=
  s.setReferencePool t (s.reference_pool t ++ [ref])

/-- `reference_pool.fetch`. -/
def fetchRef (s : Store T) (t : T) : Ref × Store T :=
  match s.reference_pool t with
  | [] => (.generated s.next_ref, { s with next_ref := s.next_ref + 1 })
  | ref :: refs => (ref, s.setReferencePool t refs)

/-- What the destructor does, and the assignment before it takes over the other object. -/
def drop (s : Store T) : CachedObject → Store T
  | .empty => s
  | .counted _ ref => s.setCounter ref (s.counter ref - 1)
  | .temp obj prealloc =>
    if some obj = prealloc.map .prealloc then s
    else match obj with
      | .fetched b => s.deallocate (some b)
      | .prealloc _ => s

end Store

namespace State

def setPc (s : State T) (t : T) (pc : Pc) : State T := { s with pc := Function.update s.pc t pc }

def setLine (s : State T) (i : ℕ) (l : CacheLine T) : State T :=
  { s with lines := Function.update s.lines i l }

def setStore (s : State T) (store : Store T) : State T := { s with store }

end State

/-- The end of a miss: `local_ptr` and the sizes, then a counter of its own for the new buffer. -/
def install (g : Geometry) (s : State T) (t : T) (q : Request) (miss : Miss) (data : ℕ) :
    Option (State T) :=
  let i := q.index g
  let l := s.lines i
  let (ref, store) := s.store.fetchRef t
  let filled : CacheLine T :=
    { l with local_ptr := some data, priority := q.priority, size := q.bytes, ref_counter := ref }
  let s := ((s.setStore (store.setCounter ref 1)).setLine i filled).setPc t
    (.increment q (some data) ref true)
  match miss with
  -- the size assertion: a thread it stops takes no further step
  | .coherence => if l.size = q.bytes then some s else none
  | .conflict => some s

/-- One access of `ExtendedRead`, with the thread-local work that follows it. -/
def next (g : Geometry) (s : State T) (t : T) : Option (State T) :=
  match s.pc t with
  | .tryFree q =>
    match s.store.dealloc_pool t with
    | [] => some (s.setPc t q.enter)
    | task :: tasks =>
      if s.store.counter task.ref_counter ≠ 0 then
        some ((s.setStore (s.store.setDeallocPool t (tasks ++ [task]))).setPc t q.enter)
      else some ((s.setStore (s.store.setDeallocPool t tasks)).setPc t (.freeTask q task))
  | .freeTask q task =>
    let store := (s.store.deallocate task.local_ptr).releaseRef t task.ref_counter
    some ((s.setStore store).setPc t (.tryFree q))
  | .bypass q =>
    match q.prealloc with
    | none =>
      let result := Buffer.fetched s.store.next_buffer
      some ((s.setStore (s.store.countBuffer.construct (.temp result none))).setPc t .idle)
    | some n => some ((s.setStore (s.store.construct (.temp (.prealloc n) (some n)))).setPc t .idle)
  | .fetch q miss =>
    some ((s.setStore s.store.countBuffer).setPc t (.decrement q miss s.store.next_buffer))
  | .decrement q miss data =>
    let l := s.lines (q.index g)
    let store := s.store.setCounter l.ref_counter (s.store.counter l.ref_counter - 1)
    some ((s.setStore store).setPc t
      (.testZero q miss data ⟨l.local_ptr, l.size, l.ref_counter⟩))
  | .testZero q miss data old =>
    if s.store.counter old.ref_counter = 0 then some (s.setPc t (.freeOld q miss data old))
    else if old.local_ptr ≠ none then
      let store := s.store.setDeallocPool t (s.store.dealloc_pool t ++ [old])
      some ((s.setStore store).setPc t (.install q miss data))
    else
      some ((s.setStore (s.store.releaseRef t old.ref_counter)).setPc t (.install q miss data))
  | .freeOld q miss data old =>
    let store := (s.store.deallocate old.local_ptr).releaseRef t old.ref_counter
    some ((s.setStore store).setPc t (.install q miss data))
  | .install q miss data => install g s t q miss data
  | .increment q result ref acquired_wlock =>
    let store := s.store.setCounter ref (s.store.counter ref + 1)
    some ((s.setStore store).setPc t (.unlock q result ref acquired_wlock))
  | .unlock q result ref acquired_wlock =>
    let l := s.lines (q.index g)
    let mu := if acquired_wlock then l.mu.unlock else l.mu.unlockShared t
    let s := s.setStore (s.store.construct (.counted result ref))
    some ((s.setLine (q.index g) { l with mu }).setPc t .idle)
  | pc => do
    let q ← pc.lineRequest
    let (l, pc) ← lineStep t (s.lines (q.index g)) pc
    return (s.setLine (q.index g) l).setPc t pc

def step (g : Geometry) (s : State T) : Act T → Option (State T)
  | .read t q =>
    match s.pc t with
    | .idle => some (s.setPc t (.tryFree q))
    | _ => none
  | .next t => next g s t
  | .invalidate i =>
    some (s.setLine i { s.lines i with address := markPtr (s.lines i).address })
  | .construct => some (s.setStore (s.store.construct .empty))
  | .moveConstruct k =>
    (s.store.objects[k]?).map fun o => s.setStore ((s.store.setObject k .empty).construct o)
  | .moveAssign k j =>
    match s.store.objects[k]?, s.store.objects[j]? with
    | some old, some o =>
      some (s.setStore (((s.store.drop old).setObject k o).setObject j .empty))
    | _, _ => none
  | .destroy k =>
    (s.store.objects[k]?).map fun o => s.setStore ((s.store.drop o).setObject k .empty)

/-- Nothing counted, pooled, constructed or given back yet. -/
def Store.empty : Store T where
  counter _ := 0
  next_ref := 0
  next_buffer := 0
  deallocations := []
  reference_pool _ := []
  dealloc_pool _ := []
  objects := []

/-- The constructor's lines, each with a counter of its own at 0, and no thread in a read. -/
def Initial (s : State T) : Prop :=
  (∀ i, (s.lines i).address = 0#64 ∧ (s.lines i).mu = .free ∧ (s.lines i).priority = 2147483647 ∧
    (s.lines i).local_ptr = none ∧ (s.lines i).ref_counter = .line i) ∧
  (∀ t, s.pc t = .idle) ∧ s.store = .empty

def machine (g : Geometry) (T : Type) [DecidableEq T] : Machine (State T) (Act T) where
  init := Initial
  step := step g

end ObjectCache.Cache.Buffers
