import ObjectCache.Rdmask.Nodes

/-! `RdmaSkipList` under any number of clients and helper threads, one read or compare-and-swap at a time. -/

set_option linter.unusedSectionVars false

namespace ObjectCache.Rdmask

open Lib

/-- What `fill` leaves on a level. -/
structure Level (A K : Type) where
  pred : Ptr A
  succ : Ptr A
  found : Bool
  prev_key : K

/-- The variables of `fill`; a `next_curr` that was moved from holds nothing. -/
structure Fill (A K V : Type) where
  curr : Obj A K V
  next_curr : Option (Obj A K V)
  height : ℕ
  level : ℕ → Level A K

/-- Who has called `fill`: `nonblock_unlink_node` of an insertion, or `unlink_node` or `raise_node` of a helper
thread at `curr`. -/
inductive Caller (A K V : Type) where
  | nonblock (op : MapOp K V) (key : K)
  | unlink (curr : Obj A K V) (retries : ℕ)
  | raise (curr : Obj A K V)

inductive Pc (A K V : Type) where
  | idle
  | findRoot (op : MapOp K V)
  | find (op : MapOp K V) (curr : Obj A K V) (height : ℕ)
  | revive (op : MapOp K V) (curr : Obj A K V)
  | allocate (op : MapOp K V) (curr : Obj A K V)
  | link (op : MapOp K V) (curr : Obj A K V) (new_node : A) (height : ℕ)
  | delete (op : MapOp K V) (curr : Obj A K V)
  | done (op : MapOp K V) (ret : Option V)
  | fillRoot (w : Caller A K V)
  | fill (w : Caller A K V) (f : Fill A K V)
  | nonblock (op : MapOp K V) (f : Fill A K V) (node : Obj A K V)
  | helperRoot
  | helper (curr : Obj A K V)
  | claim (curr : Obj A K V)
  | reserve (curr : Obj A K V)
  | mark (curr : Obj A K V) (retries : ℕ) (f : Fill A K V) (height : ℕ)
  | unlink (curr : Obj A K V) (retries : ℕ) (f : Fill A K V) (height : ℕ)
  | retire (curr : Obj A K V)
  | raise (curr : Obj A K V) (f : Fill A K V) (height : ℕ)
  | attach (curr : Obj A K V) (f : Fill A K V) (height : ℕ)
  | settle (curr : Obj A K V) (f : Fill A K V)
  | refresh (curr : Obj A K V)

/-- The nodes ever allocated, those linked, those given back unlinked by `requeue` and those pushed into the limbo
lists; `delta` is what a client counts of its calls for each key. -/
structure State (A K V T : Type) where
  memory : Memory A K V
  allocated : List A
  linked : List A
  requeued : List A
  retired : List A
  pc : T → Pc A K V
  delta : T → K → ℤ

inductive Act (A K V T : Type) where
  | call (t : T) (op : MapOp K V)
  | next (t : T) (v : Version)
  | allocate (t : T) (a : A) (height : ℕ)
  | finish (t : T)

variable {A K V T : Type}

def Caller.key : Caller A K V → K
  | .nonblock _ key => key
  | .unlink curr _ | .raise curr => curr.node.key

def Config.root_ptr (c : Config A K V T) (t : T) : Ptr A :=
  ⟨some c.root, c.cache_floor t < c.max_height, false⟩

variable [LinearOrder K] [DecidableEq V]

/-- What an operation does with the node that `find` returns. -/
def found (c : Config A K V T) (op : MapOp K V) (curr : Obj A K V) : Pc A K V :=
  let live := curr.node.value ≠ c.delete_sentinel ∧ curr.node.value ≠ c.unlink_sentinel
  match op with
  | .contains k => .done op (if k = curr.node.key ∧ live then some curr.node.value else none)
  | .insert k _ =>
    if curr.node.key = k then
      if curr.node.value = c.unlink_sentinel then .findRoot op
      else if curr.node.value = c.delete_sentinel then .revive op curr
      else .done op (some curr.node.value)
    else .allocate op curr
  | .remove k =>
    if curr.node.key ≠ k then .done op none
    else if live then .delete op curr
    else .done op none

def descend (c : Config A K V T) (op : MapOp K V) (curr : Obj A K V) : ℕ → Pc A K V
  | 0 => found c op curr
  | height + 1 => .find op curr height

def isInsert : MapOp K V → Bool
  | .insert _ _ => true
  | .remove _ | .contains _ => false

/-- The beginning of `unlink_node`. -/
def unlinkNode (c : Config A K V T) (curr : Obj A K V) (retries : ℕ) : Pc A K V :=
  if retries = 0 then .retire curr
  else if curr.node.key = c.min_key then .retire curr
  else .fillRoot (.unlink curr retries)

/-- What a caller does with the outcome of `fill`; nothing where it would follow an empty `CachedObject`. -/
def filled (c : Config A K V T) (f : Fill A K V) : Caller A K V → Option (Pc A K V)
  | .nonblock op _ =>
    if !(f.level 1).found && (f.level 0).found then
      f.next_curr.map fun node =>
        if node.node.value = c.unlink_sentinel then .nonblock op f node else .findRoot op
    else some (.findRoot op)
  | .unlink curr retries => some (.mark curr retries f c.max_height)
  | .raise curr => some (.raise curr f 0)

/-- The end of a level. -/
def Fill.descend (c : Config A K V T) (w : Caller A K V) (f : Fill A K V) (l : Level A K) : Option (Pc A K V) :=
  let f := { f with level := Function.update f.level f.height l }
  match f.height with
  | 0 => filled c f w
  | height + 1 => some (.fill w { f with height := height })

variable [DecidableEq A] [DecidableEq T]

namespace State

def setPc (s : State A K V T) (t : T) (pc : Pc A K V) : State A K V T :=
  { s with pc := Function.update s.pc t pc }

def put (s : State A K V T) (t : T) (m : Memory A K V) (pc : Pc A K V) : State A K V T :=
  { s with
    memory := m
    pc := Function.update s.pc t pc }

end State

def stepFind (c : Config A K V T) (s : State A K V T) (op : MapOp K V) (curr : Obj A K V) (height : ℕ)
    (v : Version) : Option (Pc A K V) :=
  let next := curr.node.next height
  if curr.node.key = op.key then some (found c op curr)
  else if next.sans = .null then some (descend c op curr height)
  else
    (s.memory.read next.sans v).map fun next_curr =>
      if isInsert op && height = 0 && next.deleted && op.key ≤ next_curr.node.key &&
          curr.node.value = c.unlink_sentinel then
        .fillRoot (.nonblock op curr.node.key)
      else if next_curr.node.key ≤ op.key then .find op next_curr height
      else descend c op curr height

def stepFill (c : Config A K V T) (s : State A K V T) (w : Caller A K V) (f : Fill A K V) (v : Version) :
    Option (Pc A K V) :=
  let next := f.curr.node.next f.height
  let prev_key := f.curr.node.key
  if next.sans = .null then f.descend c w ⟨f.curr.remote_origin, .null, false, prev_key⟩
  else
    (s.memory.read next.sans v).bind fun next_curr =>
      if next_curr.node.key < w.key then some (.fill w { f with
        curr := next_curr
        next_curr := none })
      else
        let f := { f with next_curr := some next_curr }
        if next_curr.node.key = w.key then
          f.descend c w ⟨f.curr.remote_origin, next_curr.node.next f.height, true, prev_key⟩
        else f.descend c w ⟨f.curr.remote_origin, next_curr.remote_origin, false, prev_key⟩

/-- The loop of a helper thread at the next node. -/
def visit (c : Config A K V T) (curr : Obj A K V) : Pc A K V :=
  if curr.node.value = c.delete_sentinel ∧ curr.node.link_level = curr.node.height then .claim curr
  else if curr.node.value = c.unlink_sentinel then .helper curr
  else .reserve curr

def step_next (c : Config A K V T) (s : State A K V T) (t : T) (v : Version) : Option (State A K V T) :=
  match s.pc t with
  | .idle | .done _ _ | .allocate _ _ => none
  | .findRoot op => (s.memory.read (c.root_ptr t) v).map fun curr => s.setPc t (.find op curr (c.max_height - 1))
  | .find op curr height => (stepFind c s op curr height v).map (s.setPc t)
  | .revive op curr =>
    match op with
    | .insert _ value => do
      let (old_value, m) ← s.memory.casValue curr.remote_origin c.delete_sentinel value
      if old_value = c.delete_sentinel then some (s.put t m (.done op none))
      else if old_value = c.unlink_sentinel then some (s.put t m (.findRoot op))
      else some (s.put t m (.done op (some old_value)))
    | .remove _ | .contains _ => none
  | .link op curr new_node height => do
    let expected := (curr.node.next 0).sans
    let (old, m) ← s.memory.casNext curr.remote_origin 0 expected
      ⟨some new_node, c.cache_floor t < height, false⟩
    if old = expected then some ({ s with linked := new_node :: s.linked }.put t m (.done op none))
    else some ({ s with requeued := new_node :: s.requeued }.put t m (.findRoot op))
  | .delete op curr => do
    let (old, m) ← s.memory.casValue curr.remote_origin curr.node.value c.delete_sentinel
    if old = curr.node.value then some (s.put t m (.done op (some curr.node.value)))
    else some (s.put t m (.done op none))
  | .fillRoot w =>
    (s.memory.read (c.root_ptr t) v).map fun curr =>
      s.setPc t (.fill w ⟨curr, none, c.max_height - 1, fun _ => ⟨.null, .null, false, c.min_key⟩⟩)
  | .fill w f => (stepFill c s w f v).map (s.setPc t)
  | .nonblock op f node => do
    let l := f.level 0
    let (old_ptr, m) ← s.memory.casNext l.pred 0 node.remote_origin.sans l.succ.sans
    if old_ptr = node.remote_origin.sans then some (s.put t m (.findRoot op))
    else if old_ptr = node.remote_origin.marked_del then
      some (s.put t m (.fillRoot (.nonblock op l.prev_key)))
    else some (s.put t m (.findRoot op))
  | .helperRoot => (s.memory.read (c.root_ptr t) v).map fun curr => s.setPc t (.helper curr)
  | .helper curr =>
    let next := (curr.node.next 0).sans
    -- the epoch ends before the next traversal
    if next = .null then some (s.setPc t .helperRoot)
    else (s.memory.read next v).map fun curr => s.setPc t (visit c curr)
  | .claim curr => do
    let (last, m) ← s.memory.casValue curr.remote_origin c.delete_sentinel c.unlink_sentinel
    if last = c.delete_sentinel then some (s.put t m (unlinkNode c curr 10000))
    else some (s.put t m (.helper curr))
  | .reserve curr => do
    let (old_height, m) ← s.memory.casLink curr.remote_origin 0 1
    if curr.node.link_level = 0 ∧ 1 < curr.node.height ∧ old_height = 0 then
      some (s.put t m (.fillRoot (.raise curr)))
    else some (s.put t m (.helper curr))
  | .mark curr _ _ 0 => some (s.setPc t (.retire curr))
  | .mark curr retries f (height + 1) =>
    let l := f.level height
    if !l.found then some (s.setPc t (.mark curr retries f height))
    else if l.succ.deleted then some (s.setPc t (.unlink curr retries f height))
    else do
      let node ← f.next_curr
      let (old_ptr, m) ← s.memory.casNext node.remote_origin height l.succ l.succ.marked_del
      if old_ptr = l.succ then some (s.put t m (.unlink curr retries f height))
      else some (s.put t m (unlinkNode c curr (retries - 1)))
  | .unlink curr retries f height => do
    let l := f.level height
    let node ← f.next_curr
    if l.pred.deleted || node.remote_origin.deleted then none
    else
      let (old_ptr, m) ← s.memory.casNext l.pred height node.remote_origin.sans l.succ.sans
      if old_ptr = node.remote_origin then some (s.put t m (.mark curr retries f height))
      else some (s.put t m (unlinkNode c curr (retries - 1)))
  | .retire curr => do
    let a ← curr.remote_origin.address
    let curr ← s.memory.read curr.remote_origin v
    some ({ s with retired := a :: s.retired }.setPc t (.helper curr))
  | .raise curr f height =>
    if height < curr.node.height then
      let l := f.level height
      if l.found then some (s.setPc t (.raise curr f (height + 1)))
      else do
        let node ← f.next_curr
        let next := node.node.next height
        if next.deleted then none
        else
          let (old_ptr, m) ← s.memory.casNext node.remote_origin height next l.succ
          if old_ptr = next then some (s.put t m (.attach curr f height))
          else some (s.put t m (.fillRoot (.raise curr)))
    else some (s.setPc t (.settle curr f))
  | .attach curr f height => do
    let l := f.level height
    let node ← f.next_curr
    if l.pred.deleted || node.remote_origin.deleted then none
    else
      let (old_ptr, m) ← s.memory.casNext l.pred height l.succ.sans node.remote_origin
      if old_ptr = l.succ.sans then some (s.put t m (.raise curr f (height + 1)))
      else some (s.put t m (.fillRoot (.raise curr)))
  | .settle curr f => do
    let node ← f.next_curr
    let (_, m) ← s.memory.casLink node.remote_origin 1 curr.node.height
    some (s.put t m (.refresh curr))
  | .refresh curr => (s.memory.read curr.remote_origin v).map fun curr => s.setPc t (.helper curr)

/-- `delta++` and `delta--` of the map's wrapper, for each key. -/
def counted (delta : K → ℤ) : MapOp K V → Option V → K → ℤ
  | .insert k _, none => Function.update delta k (delta k + 1)
  | .remove k, some _ => Function.update delta k (delta k - 1)
  | _, _ => delta

def step (c : Config A K V T) (s : State A K V T) : Act A K V T → Option (State A K V T)
  | .call t op =>
    match s.pc t with
    | .idle => some (s.setPc t (.findRoot op))
    | _ => none
  | .next t v => step_next c s t v
  | .allocate t a height =>
    match s.pc t with
    | .allocate (.insert k value) curr =>
      if a ∉ s.allocated ∧ 1 ≤ height ∧ height ≤ c.max_height then
        let new_node : Node A K V := {
          value := value
          key := k
          height := height
          link_level := 0
          next := Function.update (fun _ => .null) 0 (curr.node.next 0) }
        some ({ s with allocated := a :: s.allocated }.put t (s.memory.store a new_node)
          (.link (.insert k value) curr a height))
      else none
    | _ => none
  | .finish t =>
    match s.pc t with
    | .done op ret => some ({ s with delta := Function.update s.delta t (counted (s.delta t) op ret) }.setPc t .idle)
    | _ => none

def Config.root_node (c : Config A K V T) : Node A K V where
  value := c.zero
  key := c.min_key
  height := c.root_height
  link_level := c.root_link_level
  next _ := .null

def initial (c : Config A K V T) : State A K V T where
  memory := ⟨Function.update (fun _ => []) c.root [c.root_node]⟩
  allocated := [c.root]
  linked := [c.root]
  requeued := []
  retired := []
  pc t := if c.is_helper t then .helperRoot else .idle
  delta _ _ := 0

def machine (c : Config A K V T) : Machine (State A K V T) (Act A K V T) where
  init s := s = initial c
  step := step c

end ObjectCache.Rdmask
