import ObjectCache.Lib.Transition
import ObjectCache.Lib.SharedMutex
import ObjectCache.Cache.Ptr
import Mathlib.Data.Fintype.Basic
import Mathlib.Tactic.Linarith

/-! The coherence protocol of `RemoteCacheImpl`: marked reads, writes and invalidations by any
number of threads on any number of nodes, one shared-memory access at a time. -/

namespace ObjectCache.Cache.Coherence

open Lib

/-- A line, with the read-only contents of the buffer `local_ptr` names in place of the pointer. -/
structure CacheLine (T V : Type) where
  address : Raw
  mu : SharedMutex T
  priority : ℤ
  size : ℕ
  data : Option V

/-- The two misses that refill a line. -/
inductive Miss where
  | coherence
  | conflict
  deriving DecidableEq

/-- Where a thread stands in `ExtendedRead`, `Write` or `Invalidate`. -/
inductive Pc (N : ℕ) (V : Type) where
  | idle
  | lockShared (p : Ptr) (priority : ℤ)
  | compare (p : Ptr) (priority : ℤ)
  | testBit (p : Ptr) (priority : ℤ)
  | hit (p : Ptr)
  | unlockHit (p : Ptr) (result : Option V)
  | testPriority (p : Ptr) (priority : ℤ)
  | unlockBypass (p : Ptr)
  | bypass (p : Ptr)
  | original (p : Ptr) (priority : ℤ)
  | unlockMiss (p : Ptr) (priority : ℤ) (miss : Miss) (original : Raw)
  | lock (p : Ptr) (priority : ℤ) (miss : Miss) (original : Raw)
  | recheck (p : Ptr) (priority : ℤ) (miss : Miss) (original : Raw)
  | unlockRetry (p : Ptr) (priority : ℤ)
  | clearLoad (p : Ptr) (priority : ℤ)
  | clearStore (p : Ptr) (priority : ℤ) (loaded : Raw)
  | swap (p : Ptr) (priority : ℤ)
  | fetch (p : Ptr) (priority : ℤ) (miss : Miss)
  | install (p : Ptr) (priority : ℤ) (miss : Miss) (data : V)
  | unlockFill (p : Ptr) (result : V)
  | store (p : Ptr) (val : V) (more : List V)
  | lockInvalidate (p : Ptr)
  | compareInvalidate (p : Ptr)
  | orLoad (p : Ptr)
  | orStore (p : Ptr) (loaded : Raw)
  | unlockInvalidate (p : Ptr)
  | casPeers (p : Ptr) (left : List (Fin N))
  | done (p : Ptr) (result : Option V)

/-- `ExtendedRead`, `Write`, and an `Invalidate` that follows direct writes to the owner. -/
inductive Op (V : Type) where
  | read (p : Ptr) (priority : ℤ)
  | write (p : Ptr) (val : V)
  | invalidate (p : Ptr) (val : V) (more : List V)

/-- The nodes, the threads' homes, and the one size each object is read with. -/
structure Config (T : Type) where
  nodes : ℕ
  home : T → Fin nodes
  geometry : Geometry
  size : Ptr → ℕ

structure State {T : Type} (c : Config T) (V : Type) where
  lines : Fin c.nodes → ℕ → CacheLine T V
  owner : Ptr → V
  pc : T → Pc c.nodes V

inductive Act {T : Type} (c : Config T) (V : Type) where
  | begin (t : T) (op : Op V)
  | next (t : T)
  | cas (t : T) (peer : Fin c.nodes)

variable {T V : Type} [DecidableEq T]

/-- `remote_caches`: the roots of all the other nodes. -/
def Config.remoteCaches (c : Config T) (n : Fin c.nodes) : List (Fin c.nodes) :=
  (List.finRange c.nodes).filter (· ≠ n)

/-- One access of a thread to the line its pointer is hashed to, on its own node. -/
def localStep (c : Config T) (t : T) (owner : Ptr → V) (l : CacheLine T V) :
    Pc c.nodes V → Option (CacheLine T V × Pc c.nodes V)
  | .lockShared p k => (l.mu.lockShared t).map fun mu => ({ l with mu }, .compare p k)
  | .compare p k =>
    some (l, if unmarkPtr l.address = p.raw then .testBit p k else .testPriority p k)
  | .testBit p k =>
    some (l, if isMarked l.address then .unlockMiss p k .coherence (unmarkPtr l.address)
      else .hit p)
  -- the size assertion: a thread it stops takes no further step
  | .hit p => if l.size = c.size p then some (l, .unlockHit p l.data) else none
  | .unlockHit p result => some ({ l with mu := l.mu.unlockShared t }, .done p result)
  | .testPriority p k =>
    some (l, if l.priority < k then .unlockBypass p else .original p k)
  | .unlockBypass p => some ({ l with mu := l.mu.unlockShared t }, .bypass p)
  | .bypass p => some (l, .done p (some (owner p)))
  | .original p k => some (l, .unlockMiss p k .conflict (unmarkPtr l.address))
  | .unlockMiss p k miss original =>
    some ({ l with mu := l.mu.unlockShared t }, .lock p k miss original)
  | .lock p k miss original =>
    (l.mu.lock t).map fun mu => ({ l with mu }, .recheck p k miss original)
  | .recheck p k miss original =>
    some (l, if unmarkPtr l.address ≠ original then .unlockRetry p k
      else match miss with
        | .coherence => .clearLoad p k
        | .conflict => .swap p k)
  | .unlockRetry p k => some ({ l with mu := l.mu.unlock }, .lockShared p k)
  -- the plain read-modify-write of the address: a remote CAS can fall between load and store
  | .clearLoad p k => some (l, .clearStore p k l.address)
  | .clearStore p k loaded => some ({ l with address := unmarkPtr loaded }, .fetch p k .coherence)
  | .swap p k => some ({ l with address := p.raw }, .fetch p k .conflict)
  | .fetch p k miss => some (l, .install p k miss (owner p))
  | .install p k .coherence v =>
    if l.size = c.size p then some ({ l with data := some v, priority := k }, .unlockFill p v)
    else none
  | .install p k .conflict v =>
    some ({ l with data := some v, priority := k, size := c.size p }, .unlockFill p v)
  | .unlockFill p v => some ({ l with mu := l.mu.unlock }, .done p (some v))
  | .lockInvalidate p => (l.mu.lock t).map fun mu => ({ l with mu }, .compareInvalidate p)
  | .compareInvalidate p =>
    some (l, if unmarkPtr l.address = p.raw then .orLoad p else .unlockInvalidate p)
  | .orLoad p => some (l, .orStore p l.address)
  | .orStore p loaded => some ({ l with address := markPtr loaded }, .unlockInvalidate p)
  | .unlockInvalidate p =>
    some ({ l with mu := l.mu.unlock }, .casPeers p (c.remoteCaches (c.home t)))
  | .casPeers p [] => some (l, .done p none)
  | .done _ _ => some (l, .idle)
  | .idle | .store _ _ _ | .casPeers _ (_ :: _) => none

/-- The pointer a thread works on. -/
def Pc.ptr {N : ℕ} : Pc N V → Option Ptr
  | .idle => none
  | .lockShared p _ | .compare p _ | .testBit p _ | .hit p | .unlockHit p _ | .testPriority p _
  | .unlockBypass p | .bypass p | .original p _ | .unlockMiss p _ _ _ | .lock p _ _ _
  | .recheck p _ _ _ | .unlockRetry p _ | .clearLoad p _ | .clearStore p _ _ | .swap p _
  | .fetch p _ _ | .install p _ _ _ | .unlockFill p _ | .store p _ _ | .lockInvalidate p
  | .compareInvalidate p | .orLoad p | .orStore p _ | .unlockInvalidate p | .casPeers p _
  | .done p _ => some p

/-- The compare-and-swap of `invalidate` on a peer's line. -/
def CacheLine.cas (l : CacheLine T V) (p : Ptr) : CacheLine T V :=
  if l.address = p.raw then { l with address := markPtr p.raw } else l

namespace State

variable {c : Config T}

/-- The line of a node that `p` is hashed to. -/
def line (s : State c V) (n : Fin c.nodes) (p : Ptr) : CacheLine T V :=
  s.lines n (hash c.geometry p)

def setLine (s : State c V) (n : Fin c.nodes) (p : Ptr) (l : CacheLine T V) : State c V :=
  let onNode := Function.update (s.lines n) (hash c.geometry p) l
  { s with lines := Function.update s.lines n onNode }

def setPc (s : State c V) (t : T) (pc : Pc c.nodes V) : State c V :=
  { s with pc := Function.update s.pc t pc }

end State

def step {c : Config T} (s : State c V) : Act c V → Option (State c V)
  | .begin t op =>
    match s.pc t, op with
    | .idle, .read p k => some (s.setPc t (.lockShared p k))
    | .idle, .write p v => some (s.setPc t (.store p v []))
    | .idle, .invalidate p v vs => some (s.setPc t (.store p v vs))
    | _, _ => none
  | .next t =>
    match s.pc t with
    | .store p v more =>
      let s := { s with owner := Function.update s.owner p v }
      match more with
      | [] => some (s.setPc t (.lockInvalidate p))
      | w :: ws => some (s.setPc t (.store p w ws))
    | pc => do
      let p ← pc.ptr
      let (l, pc) ← localStep c t s.owner (s.line (c.home t) p) pc
      return (s.setLine (c.home t) p l).setPc t pc
  | .cas t n =>
    match s.pc t with
    | .casPeers p left =>
      if n ∈ left then
        some ((s.setLine n p ((s.line n p).cas p)).setPc t (.casPeers p (left.erase n)))
      else none
    | _ => none

/-- The constructor leaves every line empty: address 0, the lowest precedence, no buffer. -/
def Initial {c : Config T} (s : State c V) : Prop :=
  (∀ n i, (s.lines n i).address = 0#64 ∧ (s.lines n i).mu = .free ∧
    (s.lines n i).priority = 2147483647 ∧ (s.lines n i).data = none) ∧ ∀ t, s.pc t = .idle

def machine (c : Config T) (V : Type) : Machine (State c V) (Act c V) where
  init := Initial
  step := step

end ObjectCache.Cache.Coherence
