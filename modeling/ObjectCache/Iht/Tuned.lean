import ObjectCache.Iht.Rdma

/-! `TunedRdmaIHT`: the PLists, ELists and locks of `RdmaIHT`, read directly, with a private cache of
calcified PLists in every client and one descent for the three operations. -/

namespace ObjectCache.Iht.Tuned

open Lib Cache Rdma

/-- A PList that `try_cache` has saved. `path` is the bucket path it was saved under, which the code
does not keep. -/
structure Saved (A : Type) where
  path : List ℕ
  length : ℕ
  buckets : PList A

/-- The entries of `layer_1` to `layer_3` that are cached, by layer and index. -/
abbrev Layers (A : Type) := List ((ℕ × ℕ) × Saved A)

variable {A K V N T : Type}

/-- `sizes`. -/
def sizes (c : Config A K) : ℕ → ℕ
  | 0 => 1
  | 1 => c.plist_size
  | _ => 2 * c.plist_size * c.plist_size

/-- The lengths of the layers. -/
def layerSize (c : Config A K) : ℕ → ℕ
  | 0 => 1
  | 1 => c.plist_size
  | 2 => c.plist_size * c.plist_size * 2
  | _ => 0

/-- The loop of `fetch_cache` and `try_cache`: the layer and the index of a bucket path; nothing for
a path that is too long to be cached. -/
def place (c : Config A K) : List ℕ → ℕ → ℕ → Option (ℕ × ℕ)
  | [], i, bucket_of_cache => if i = c.cache_depth then none else some (i, bucket_of_cache)
  | n :: path, i, bucket_of_cache =>
    if i = c.cache_depth then none else place c path (i + 1) (bucket_of_cache * sizes c i + n)

def fetch_cache (c : Config A K) (l : Layers A) (path : List ℕ) : Option (Saved A) :=
  (place c path 0 0).bind (EList.lookup l)

def try_cache (c : Config A K) (l : Layers A) (path : List ℕ) (curr : PList A) : Layers A :=
  match place c path 0 0 with
  | none => l
  | some x =>
    let count := c.plist_size * 2 ^ path.length
    if (EList.lookup l x).isSome then l
    else if ∀ b < count - 1, (curr b).lock = .p_unlocked then (x, ⟨path, count, curr⟩) :: l
    else l

/-- `descent_context`. `path` holds the buckets above `parent_ptr`. -/
structure Context (A K V : Type) where
  op : MapOp K V
  parent_ptr : A
  path : List ℕ
  depth : ℕ
  count : ℕ

inductive Pc (A K V : Type) where
  | idle
  | fetch (x : Context A K V)
  | extendedRead (x : Context A K V)
  | refetch (x : Context A K V)
  | acquire (x : Context A K V) (curr : PList A)
  | readElist (x : Context A K V) (curr : PList A) (did_acquire : Bool)
  | writeElist (x : Context A K V) (curr : PList A) (e : EList K V) (ret : Option V)
  | rehash (x : Context A K V) (curr : PList A)
  | changePointer (x : Context A K V) (new_p : A)
  | permUnlock (x : Context A K V)
  | unlock (x : Context A K V) (ret : Option V)
  | done (op : MapOp K V) (ret : Option V)

/-- `owner` is the node that allocated a PList, and with it the ELists of its buckets. -/
structure State (A K V N T : Type) where
  memory : Memory A K V
  owner : A → N
  layers : T → Layers A
  pc : T → Pc A K V

inductive Act (A K V T : Type) where
  | call (t : T) (op : MapOp K V)
  | next (t : T)
  | allocate (t : T) (new_p : A)
  | deliver (n : ℕ)
  | finish (t : T)

instance : Inhabited (Act A K V T) := ⟨.deliver 0⟩

/-- The node of every client, and the one that made the root. -/
structure Nodes (N T : Type) where
  self : T → N
  root : N

def bucketOf (c : Config A K) (x : Context A K V) : ℕ := c.levelHash x.op.key x.depth x.count

def Context.start (c : Config A K) (op : MapOp K V) : Context A K V :=
  ⟨op, c.root, [], 1, c.plist_size⟩

/-- One round of the descent loop; nothing where `bucket_path` has no room for another bucket, or
where an EList would be taken for a PList. -/
def enter (c : Config A K) (x : Context A K V) (curr : PList A) : Option (Pc A K V) :=
  let bucket := bucketOf c x
  if 8 < x.depth then none
  else
    match (curr bucket).lock, (curr bucket).base with
    | .p_unlocked, .plist p _ =>
      some (.fetch ⟨x.op, p, x.path ++ [bucket], x.depth + 1, x.count * 2⟩)
    | .p_unlocked, .elist _ _ => none
    | _, _ => some (if c.free x.op then .readElist x curr false else .acquire x curr)

/-- The way out of `do_with`. -/
def leave (x : Context A K V) (did_acquire : Bool) (ret : Option V) : Pc A K V :=
  if did_acquire then .unlock x ret else .done x.op ret

section Elist

variable [DecidableEq K]

/-- The loop of `remove` from index `i` on, which goes on behind a pair that it has removed. -/
def removeFrom (k : K) : ℕ → ℕ → EList K V → Option V → EList K V × Option V
  | 0, _, e, result => (e, result)
  | fuel + 1, i, e, result =>
    match e[i]? with
    | some kv =>
      if kv.1 = k then removeFrom k fuel (i + 1) (e.takeOut i) (some kv.2)
      else removeFrom k fuel (i + 1) e result
    | none => (e, result)

/-- The closures of `contains`, `insert` and `remove` on a copy of the EList. A changed copy is
written back only to an EList of another node. -/
def apply (c : Config A K) (is_local : Bool) (x : Context A K V) (curr : PList A)
    (did_acquire : Bool) (e : EList K V) : Pc A K V :=
  match x.op with
  | .contains k => leave x did_acquire (e.lookup k)
  | .insert k v =>
    if (e.lookup k).isSome then leave x did_acquire (e.lookup k)
    else if e.length < c.elist_size then
      if is_local then leave x did_acquire none else .writeElist x curr (e.elist_insert k v) none
    else .rehash x curr
  | .remove k =>
    let e' := removeFrom k e.length 0 e none
    if e'.2.isNone || is_local then leave x did_acquire e'.2 else .writeElist x curr e'.1 e'.2

end Elist

variable [DecidableEq A] [DecidableEq K] [DecidableEq N] [DecidableEq T]

def State.put (s : State A K V N T) (m : Memory A K V) (t : T) (pc : Pc A K V) : State A K V N T :=
  { s with memory := m, pc := Function.update s.pc t pc }

def next (c : Config A K) (n : Nodes N T) (s : State A K V N T) (t : T) :
    Option (State A K V N T) :=
  let m := s.memory
  match s.pc t with
  | .fetch x =>
    match fetch_cache c (s.layers t) x.path with
    | some cache => (enter c x cache.buckets).map (s.put m t)
    | none => some (s.put m t (.extendedRead x))
  | .extendedRead x =>
    let curr := m.plists x.parent_ptr
    let layers := Function.update s.layers t (try_cache c (s.layers t) x.path curr)
    (enter c x curr).map ({ s with layers := layers }.put m t)
  | .refetch x => (enter c x (m.plists x.parent_ptr)).map (s.put m t)
  | .acquire x curr =>
    let bucket := bucketOf c x
    let b := m.plists x.parent_ptr bucket
    match b.lock with
    | .e_unlocked =>
      some (s.put (m.setBucket x.parent_ptr bucket ⟨b.base, .e_locked⟩) t (.readElist x curr true))
    | .p_unlocked => some (s.put m t (.refetch x))
    | .e_locked => some s
  | .readElist x curr did_acquire =>
    match (curr (bucketOf c x)).base with
    | .elist p i =>
      let e := m.elists p i
      if c.elist_size + 1 < e.length then some (s.put m t (.acquire x curr))
      else some (s.put m t (apply c (s.owner p = n.self t) x curr did_acquire e))
    -- the first word of a PList is a pointer, and no count is as large
    | .plist _ _ => some (s.put m t (.acquire x curr))
  | .writeElist x curr e ret =>
    match (curr (bucketOf c x)).base with
    | .elist p i => some (s.put (m.setElist p i e) t (.unlock x ret))
    | .plist _ _ => none
  | .changePointer x new_p =>
    let bucket := bucketOf c x
    let b := m.plists x.parent_ptr bucket
    some (s.put (m.setBucket x.parent_ptr bucket ⟨.plist new_p false, b.lock⟩) t (.permUnlock x))
  | .permUnlock x =>
    some (s.put (m.send x.parent_ptr (bucketOf c x) .p_unlocked) t (.refetch x))
  | .unlock x ret =>
    some (s.put (m.send x.parent_ptr (bucketOf c x) .e_unlocked) t (.done x.op ret))
  | .idle | .rehash _ _ | .done _ _ => none

def step (c : Config A K) (n : Nodes N T) (s : State A K V N T) :
    Act A K V T → Option (State A K V N T)
  | .call t op =>
    match s.pc t with
    | .idle => some (s.put s.memory t (.fetch (.start c op)))
    | _ => none
  | .next t => next c n s t
  | .allocate t new_p =>
    match s.pc t with
    | .rehash x curr =>
      match (curr (bucketOf c x)).base with
      | .elist p i =>
        if new_p ∈ s.memory.allocated then none
        else
          let m := s.memory.rehash c x.count x.depth (s.memory.elists p i) new_p
          let owner := Function.update s.owner new_p (n.self t)
          some ({ s with owner := owner }.put m t (.changePointer x new_p))
      | .plist _ _ => none
    | _ => none
  | .deliver i =>
    match s.memory.in_flight[i]? with
    | some (p, b, w) =>
      let m := { s.memory with in_flight := s.memory.in_flight.eraseIdx i }
      some { s with memory := m.setBucket p b ⟨(m.plists p b).base, w⟩ }
    | none => none
  | .finish t =>
    match s.pc t with
    | .done _ _ => some (s.put s.memory t .idle)
    | _ => none

def initial (c : Config A K) (n : Nodes N T) : State A K V N T where
  memory := .initial c
  owner _ := n.root
  layers _ := []
  pc _ := .idle

def machine (c : Config A K) (n : Nodes N T) : Machine (State A K V N T) (Act A K V T) where
  init s := s = initial c n
  step := step c n

/-- Calls and returns. -/
def observe (s : State A K V N T) : Act A K V T → Option (Event T (MapOp K V) (Option V))
  | .call t op => some (.call t op)
  | .finish t =>
    match s.pc t with
    | .done _ ret => some (.ret t ret)
    | _ => none
  | .next _ | .allocate _ _ | .deliver _ => none

end ObjectCache.Iht.Tuned
