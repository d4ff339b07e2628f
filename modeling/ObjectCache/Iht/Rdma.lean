import ObjectCache.Lib.MapHistory
import ObjectCache.Cache.Ptr
import ObjectCache.Iht.EList

/-! `RdmaIHT`: any number of clients, one remote read, compare-and-swap or write at a time. A read of
a PList may return any earlier content of its memory; the write that unlocks a bucket is not
acknowledged and lands at any later time. -/

namespace ObjectCache.Iht.Rdma

open Lib Cache

/-- The template arguments, `std::hash<K>`, the cache depth, whether `sizeof(EList) == 64`, and the
PList that `InitAsFirst` makes. -/
structure Config (A K : Type) where
  elist_size : ℕ
  plist_size : ℕ
  elist_pos : 1 ≤ elist_size
  plist_min : 4 ≤ plist_size
  plist_dvd : 4 ∣ plist_size
  hash : K → BitVec 64
  cache_depth : ℕ
  lock_free : Bool
  root : A

inductive LockState where
  | e_locked
  | e_unlocked
  | p_unlocked
  deriving DecidableEq

/-- A `remote_baseptr`. `InitPList` allocates an EList for every bucket of a new PList, and no other
bucket ever points to it: it is named by that bucket. -/
inductive Base (A : Type) where
  | elist (p : A) (i : ℕ)
  | plist (p : A) (marked : Bool)
  deriving DecidableEq

structure Bucket (A : Type) where
  base : Base A
  lock : LockState
  deriving DecidableEq

abbrev PList (A : Type) := ℕ → Bucket A

/-- The variables of the descent loop. -/
structure Cursor (A K V : Type) where
  op : MapOp K V
  parent_ptr : A
  marked : Bool
  depth : ℕ
  count : ℕ

/-- What a client does next. `curr` is its copy of the PList at `parent_ptr`. -/
inductive Pc (A K V : Type) where
  | idle
  | extendedRead (x : Cursor A K V)
  | acquire (x : Cursor A K V) (curr : PList A)
  | readElist (x : Cursor A K V) (curr : PList A)
  | writeElist (x : Cursor A K V) (curr : PList A) (e : EList K V) (ret : Option V)
  | rehash (x : Cursor A K V) (curr : PList A)
  | changePointer (x : Cursor A K V) (new_p : A)
  | permUnlock (x : Cursor A K V)
  | invalidate (x : Cursor A K V)
  | unlock (x : Cursor A K V) (ret : Option V)
  | done (op : MapOp K V) (ret : Option V)

/-- Remote memory. `history` has every content a PList's memory has had, newest first, and nothing
for a PList that is not allocated; `in_flight` has the lock words on their way. -/
structure Memory (A K V : Type) where
  plists : A → PList A
  elists : A → ℕ → EList K V
  allocated : List A
  history : A → List (PList A)
  in_flight : List (A × ℕ × LockState)

structure State (A K V T : Type) where
  memory : Memory A K V
  pc : T → Pc A K V

inductive Act (A K V T : Type) where
  | call (t : T) (op : MapOp K V)
  | read (t : T) (age : ℕ)
  | next (t : T)
  | allocate (t : T) (new_p : A)
  | misread (t : T) (ret : Option V)
  | deliver (n : ℕ)
  | finish (t : T)

variable {A K V T : Type}

instance : Inhabited (Act A K V T) := ⟨.deliver 0⟩

def Config.levelHash (c : Config A K) (k : K) (level count : ℕ) : ℕ :=
  (mix13 (c.hash k ^^^ BitVec.ofNat 64 level)).toNat % (count - 1)

/-- `PList` with its ELists after `InitPList`. -/
def initPList (p : A) : PList A := fun i => ⟨.elist p i, .e_unlocked⟩

/-- The bucket that the loop is at. -/
def Config.bucket (c : Config A K) (x : Cursor A K V) : ℕ := c.levelHash x.op.key x.depth x.count

/-- Whether the operation takes no lock. -/
def Config.free (c : Config A K) : MapOp K V → Bool
  | .contains _ => c.lock_free
  | .insert _ _ | .remove _ => false

def Cursor.start (c : Config A K) (op : MapOp K V) : Cursor A K V :=
  ⟨op, c.root, 1 ≤ c.cache_depth, 1, c.plist_size⟩

/-- Where the loop goes with a new copy; no answer where it would take an EList for a PList. -/
def descend (c : Config A K) (x : Cursor A K V) (curr : PList A) : Option (Pc A K V) :=
  match (curr (c.bucket x)).lock, (curr (c.bucket x)).base with
  | .p_unlocked, .plist p marked =>
    some (.extendedRead ⟨x.op, p, marked, x.depth + 1, x.count * 2⟩)
  | .p_unlocked, .elist _ _ => none
  | _, _ => some (if c.free x.op then .readElist x curr else .acquire x curr)

section Elist

variable [DecidableEq K]

/-- What an operation does with the EList it has read. -/
def withElist (c : Config A K) (x : Cursor A K V) (curr : PList A) (e : EList K V) : Pc A K V :=
  match x.op with
  | .contains k => if c.lock_free then .done x.op (e.lookup k) else .unlock x (e.lookup k)
  | .insert k v =>
    if (e.lookup k).isSome then .unlock x (e.lookup k)
    else if e.length < c.elist_size then .writeElist x curr (e.elist_insert k v) none
    else .rehash x curr
  | .remove k =>
    if (e.lookup k).isSome then .writeElist x curr (e.remove k) (e.lookup k) else .unlock x none

end Elist

namespace Memory

variable [DecidableEq A]

/-- A write into a PList's memory. -/
def setBucket (m : Memory A K V) (p : A) (i : ℕ) (b : Bucket A) : Memory A K V :=
  let plist := Function.update (m.plists p) i b
  { m with
    plists := Function.update m.plists p plist
    history := Function.update m.history p (plist :: m.history p) }

def setElist (m : Memory A K V) (p : A) (i : ℕ) (e : EList K V) : Memory A K V :=
  { m with elists := Function.update m.elists p (Function.update (m.elists p) i e) }

/-- `unlock`: the lock word is sent and not waited for. -/
def send (m : Memory A K V) (p : A) (i : ℕ) (w : LockState) : Memory A K V :=
  { m with in_flight := m.in_flight ++ [(p, i, w)] }

end Memory

/-- The pairs of the EList that move to each bucket of the new PList. -/
def spread (c : Config A K) (count depth : ℕ) (e : EList K V) (j : ℕ) : EList K V :=
  e.filter fun kv => c.levelHash kv.1 (depth + 1) (count * 2) = j

/-- `rehash`, into a PList at `new_p`. -/
def Memory.rehash [DecidableEq A] (m : Memory A K V) (c : Config A K) (count depth : ℕ)
    (source : EList K V) (new_p : A) : Memory A K V :=
  { m with
    plists := Function.update m.plists new_p (initPList new_p)
    elists := Function.update m.elists new_p (spread c count depth source)
    allocated := new_p :: m.allocated
    history := Function.update m.history new_p [initPList new_p] }

variable [DecidableEq A] [DecidableEq K] [DecidableEq T]

/-- Memory as it is now, and the next thing that a client does. -/
def State.put (s : State A K V T) (m : Memory A K V) (t : T) (pc : Pc A K V) : State A K V T :=
  ⟨m, Function.update s.pc t pc⟩

/-- A step of a client that leaves it no choice. -/
def next (c : Config A K) (s : State A K V T) (t : T) : Option (State A K V T) :=
  let m := s.memory
  match s.pc t with
  | .acquire x curr =>
    let b := m.plists x.parent_ptr (c.bucket x)
    match b.lock with
    | .e_unlocked =>
      some (s.put (m.setBucket x.parent_ptr (c.bucket x) ⟨b.base, .e_locked⟩) t (.readElist x curr))
    | .p_unlocked => some (s.put m t (.extendedRead x))
    | .e_locked => some s
  | .readElist x curr =>
    match (curr (c.bucket x)).base with
    | .elist p i => some (s.put m t (withElist c x curr (m.elists p i)))
    | .plist _ _ => none
  | .writeElist x curr e ret =>
    match (curr (c.bucket x)).base with
    | .elist p i => some (s.put (m.setElist p i e) t (.unlock x ret))
    | .plist _ _ => none
  | .changePointer x new_p =>
    let b := m.plists x.parent_ptr (c.bucket x)
    let base := .plist new_p (decide (x.depth < c.cache_depth))
    some (s.put (m.setBucket x.parent_ptr (c.bucket x) ⟨base, b.lock⟩) t (.permUnlock x))
  | .permUnlock x => some (s.put (m.send x.parent_ptr (c.bucket x) .p_unlocked) t (.invalidate x))
  -- copies are as old as may be: nothing to invalidate
  | .invalidate x => some (s.put m t (.extendedRead x))
  | .unlock x ret =>
    some (s.put (m.send x.parent_ptr (c.bucket x) .e_unlocked) t (.done x.op ret))
  | .idle | .extendedRead _ | .rehash _ _ | .done _ _ => none

def step (c : Config A K) (s : State A K V T) : Act A K V T → Option (State A K V T)
  | .call t op =>
    match s.pc t with
    | .idle => some (s.put s.memory t (.extendedRead (.start c op)))
    | _ => none
  | .read t age =>
    match s.pc t with
    | .extendedRead x =>
      ((s.memory.history x.parent_ptr)[age]?.bind (descend c x)).map (s.put s.memory t)
    | _ => none
  | .next t => next c s t
  | .allocate t new_p =>
    match s.pc t with
    | .rehash x curr =>
      match (curr (c.bucket x)).base with
      | .elist p i =>
        if new_p ∈ s.memory.allocated then none
        else
          let m := s.memory.rehash c x.count x.depth (s.memory.elists p i) new_p
          some (s.put m t (.changePointer x new_p))
      | .plist _ _ => none
    | _ => none
  -- the bytes of a PList, read as an EList, can be anything
  | .misread t ret =>
    match s.pc t with
    | .readElist x curr =>
      match (curr (c.bucket x)).base with
      | .elist _ _ => none
      | .plist _ _ => if c.free x.op then some (s.put s.memory t (.done x.op ret)) else none
    | _ => none
  | .deliver n =>
    match s.memory.in_flight[n]? with
    | some (p, i, w) =>
      let m := { s.memory with in_flight := s.memory.in_flight.eraseIdx n }
      some { s with memory := m.setBucket p i ⟨(m.plists p i).base, w⟩ }
    | none => none
  | .finish t =>
    match s.pc t with
    | .done _ _ => some (s.put s.memory t .idle)
    | _ => none

/-- The loop of `count_plist` over the buckets. -/
def countBuckets (f : ℕ → Option ℕ) : ℕ → Option ℕ
  | 0 => some 0
  | n + 1 => do return (← countBuckets f n) + (← f n)

/-- `count_plist`, to a bounded depth; nothing where it would take one list for the other. -/
def count_plist (c : Config A K) (m : Memory A K V) : ℕ → A → ℕ → Option ℕ
  | 0, _, _ => none
  | fuel + 1, p, size =>
    countBuckets (fun i =>
      match (m.plists p i).lock, (m.plists p i).base with
      | .e_unlocked, .elist q j => some (m.elists q j).length
      | .e_locked, _ => some 0
      | .p_unlocked, .plist q _ => count_plist c m fuel q (size * 2)
      | .e_unlocked, .plist _ _ | .p_unlocked, .elist _ _ => none) (size * c.plist_size)

def count (c : Config A K) (m : Memory A K V) (fuel : ℕ) : Option ℕ := count_plist c m fuel c.root 1

/-- The table that `InitAsFirst` makes. -/
def Memory.initial (c : Config A K) : Memory A K V where
  plists := initPList
  elists _ _ := []
  allocated := [c.root]
  history p := if p = c.root then [initPList p] else []
  in_flight := []

def machine (c : Config A K) : Machine (State A K V T) (Act A K V T) where
  init s := s = ⟨.initial c, fun _ => .idle⟩
  step := step c

/-- Calls and returns; a lookup that takes no lock is left out. -/
def observe (c : Config A K) (s : State A K V T) :
    Act A K V T → Option (Event T (MapOp K V) (Option V))
  | .call t op => if c.free op then none else some (.call t op)
  | .finish t =>
    match s.pc t with
    | .done op ret => if c.free op then none else some (.ret t ret)
    | _ => none
  | .read _ _ | .next _ | .allocate _ _ | .misread _ _ | .deliver _ => none

end ObjectCache.Iht.Rdma
