import ObjectCache.Lib.FiniteMap
import ObjectCache.Cache.Ptr
import ObjectCache.Iht.EList

/-! `iht_carumap`, the interlocked hash table behind the RPC service, under one caller. -/

namespace ObjectCache.Iht.Local

open Lib Cache

/-- The template arguments and `std::hash<K>`. -/
structure Config (K : Type) where
  elist_size : ℕ
  plist_size : ℕ
  elist_pos : 1 ≤ elist_size
  plist_pos : 1 ≤ plist_size
  hash : K → BitVec 64

inductive LockState where
  | e_locked
  | e_unlocked
  | p_unlocked
  deriving DecidableEq

/-- A `Base` pointer: an EList with the pairs it holds, or a PList by its address. -/
inductive Base (K V : Type) where
  | null
  | elist (pairs : EList K V)
  | plist (p : ℕ)

structure Bucket (K V : Type) where
  base : Base K V
  lock : LockState

/-- The PLists by their addresses; from `unmade` on no address has been given out. -/
structure Table (K V : Type) where
  root : ℕ
  buckets : ℕ → ℕ → Bucket K V
  unmade : ℕ

variable {K V : Type}

def Config.levelHash (c : Config K) (k : K) (level count : ℕ) : ℕ :=
  (mix13 (c.hash k ^^^ BitVec.ofNat 64 level)).toNat % count

namespace Table

def setBucket (t : Table K V) (p i : ℕ) (b : Bucket K V) : Table K V :=
  { t with buckets := Function.update t.buckets p (Function.update (t.buckets p) i b) }

/-- `PList::make`. -/
def make (t : Table K V) : Table K V × ℕ :=
  ({ t with
      buckets := Function.update t.buckets t.unmade fun _ => ⟨.null, .e_unlocked⟩
      unmade := t.unmade + 1 }, t.unmade)

/-- The constructor. -/
def empty : Table K V where
  root := 0
  buckets _ _ := ⟨.null, .e_unlocked⟩
  unmade := 1

end Table

/-- The spin on a lock; no answer where it would spin for ever. -/
def acquire : LockState → Option Bool
  | .e_locked => none
  | .e_unlocked => some true
  | .p_unlocked => some false

/-- The pairs behind `static_cast<EList *>`. -/
def Base.pairs : Base K V → EList K V
  | .elist e => e
  | .null | .plist _ => []

/-- The loop of `rehash`. -/
def place (c : Config K) (pcount pdepth p : ℕ) (t : Table K V) : EList K V → Table K V
  | [] => t
  | (k, v) :: source =>
    let b := c.levelHash k (pdepth + 1) pcount
    let dest := (t.buckets p b).base.pairs
    place c pcount pdepth p (t.setBucket p b ⟨.elist (dest.elist_insert k v), .e_unlocked⟩) source

def rehash (c : Config K) (t : Table K V) (parent pcount pdepth pidx : ℕ) : Table K V × ℕ :=
  let source := (t.buckets parent pidx).base.pairs
  let (t, p) := t.make
  (place c pcount pdepth p t source, p)

/-- The head of the three loops: down to the first bucket whose lock is acquired. -/
def descend (c : Config K) (t : Table K V) (k : K) : ℕ → ℕ → ℕ → ℕ → Option (ℕ × ℕ × ℕ)
  | 0, _, _, _ => none
  | fuel + 1, curr, depth, count =>
    let bucket := t.buckets curr (c.levelHash k (depth + 1) count)
    match acquire bucket.lock, bucket.base with
    | some true, _ => some (curr, depth, count)
    | some false, .plist p => descend c t k fuel p (depth + 1) (count * 2)
    | _, _ => none

variable [DecidableEq K]

def get (c : Config K) (t : Table K V) (k : K) (fuel : ℕ) : Option (Table K V × Option V) := do
  let (curr, depth, count) ← descend c t k fuel t.root 1 c.plist_size
  let bucket := c.levelHash k (depth + 1) count
  let base := (t.buckets curr bucket).base
  let t := t.setBucket curr bucket ⟨base, .e_unlocked⟩
  match base with
  | .null => some (t, none)
  | .elist e => some (t, e.lookup k)
  | .plist _ => none

def remove (c : Config K) (t : Table K V) (k : K) (fuel : ℕ) : Option (Table K V × Option V) := do
  let (curr, depth, count) ← descend c t k fuel t.root 1 c.plist_size
  let bucket := c.levelHash k (depth + 1) count
  match (t.buckets curr bucket).base with
  | .null => some (t.setBucket curr bucket ⟨.null, .e_unlocked⟩, none)
  | .elist e => some (t.setBucket curr bucket ⟨.elist (e.remove k), .e_unlocked⟩, e.lookup k)
  | .plist _ => none

/-- The loop of `insert`. -/
def insertLoop (c : Config K) (k : K) (v : V) :
    ℕ → Table K V → ℕ → ℕ → ℕ → Option (Table K V × Option V)
  | 0, _, _, _, _ => none
  | fuel + 1, t, curr, depth, count => do
    let (curr, depth, count) ← descend c t k (fuel + 1) curr depth count
    let bucket := c.levelHash k (depth + 1) count
    match (t.buckets curr bucket).base with
    | .null => some (t.setBucket curr bucket ⟨.elist (EList.elist_insert [] k v), .e_unlocked⟩, none)
    | .elist e =>
      if (e.lookup k).isSome then
        some (t.setBucket curr bucket ⟨.elist e, .e_unlocked⟩, e.lookup k)
      else if e.length < c.elist_size then
        some (t.setBucket curr bucket ⟨.elist (e.elist_insert k v), .e_unlocked⟩, none)
      else
        let (t, p) := rehash c t curr count depth bucket
        insertLoop c k v fuel (t.setBucket curr bucket ⟨.plist p, .p_unlocked⟩) curr depth count
    | .plist _ => none

def insert (c : Config K) (t : Table K V) (k : K) (v : V) (fuel : ℕ) :
    Option (Table K V × Option V) :=
  insertLoop c k v fuel t t.root 1 c.plist_size

/-- A call with so many rounds of its loops. -/
def exec (c : Config K) (fuel : ℕ) (t : Table K V) : MapOp K V → Option (Table K V × Option V)
  | .insert k v => insert c t k v fuel
  | .remove k => remove c t k fuel
  | .contains k => get c t k fuel

/-- A call that returns. -/
def Call (c : Config K) (t : Table K V) (op : MapOp K V) (ret : Option V) (t' : Table K V) : Prop :=
  ∃ fuel, exec c fuel t op = some (t', ret)

/-- Whether every rehash of this insertion puts each key where the next level will look for it. -/
def aligned (c : Config K) (k : K) : ℕ → Table K V → ℕ → ℕ → ℕ → Bool
  | 0, _, _, _, _ => true
  | fuel + 1, t, curr, depth, count =>
    match descend c t k (fuel + 1) curr depth count with
    | none => true
    | some (curr, depth, count) =>
      let bucket := c.levelHash k (depth + 1) count
      let e := (t.buckets curr bucket).base.pairs
      (e.lookup k).isSome || e.length < c.elist_size ||
        let (t, p) := rehash c t curr count depth bucket
        (e.all fun kv =>
          c.levelHash kv.1 (depth + 1) count = c.levelHash kv.1 (depth + 2) (count * 2)) &&
        aligned c k fuel (t.setBucket curr bucket ⟨.plist p, .p_unlocked⟩) curr depth count

/-- The condition under which a call leaves every key on its path. -/
def alignedCall (c : Config K) (fuel : ℕ) (t : Table K V) : MapOp K V → Bool
  | .insert k _ => aligned c k fuel t t.root 1 c.plist_size
  | .remove _ | .contains _ => true

end ObjectCache.Iht.Local
