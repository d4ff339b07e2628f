import ObjectCache.Lib.Transition
import Mathlib.Logic.Function.Basic

/-! `LockFreeSkiplist`: the single loads, stores and CASes of `find`, `insert` and `remove`. -/

namespace ObjectCache.LockFree

open Lib

def MAX_LEVEL : ℕ := 16

def INT_MIN : ℤ := -2147483648

def INT_MAX : ℤ := 2147483647

/-- A `Node*` with the mark in its lowest bit. -/
structure Ptr (A : Type) where
  node : Option A
  marked : Bool
  deriving DecidableEq

/-- The fields of a Node that `insert` fills in before it links the Node. -/
structure Node (V : Type) where
  topLevel : ℕ
  key_low : ℤ
  key_high : ℤ
  value : Option V

namespace Node

variable {V : Type}

def is_less_than (n : Node V) (other_key_low other_key_high : ℤ) : Bool :=
  if other_key_high ≤ n.key_low then false
  else if n.key_high ≤ other_key_low then true
  else false

def is_equal (n : Node V) (other_key_low other_key_high : ℤ) : Bool :=
  if other_key_high ≤ n.key_low then false
  else if n.key_high ≤ other_key_low then false
  else true

end Node

variable {A V T : Type}

structure Memory (A V : Type) where
  node : A → Node V
  next : A → ℕ → Ptr A
  allocated : List A

/-- The two sentinels. -/
structure Config (A : Type) where
  head : A
  tail : A
  distinct : head ≠ tail

inductive Op (V : Type) where
  | find (key_lb key_ub : ℤ)
  | insert (key_lb key_ub : ℤ) (x : Option V)
  | remove (key_lb key_ub : ℤ)
  deriving DecidableEq

namespace Op

def key_lb : Op V → ℤ
  | .find key_lb _ | .insert key_lb _ _ | .remove key_lb _ => key_lb

def key_ub : Op V → ℤ
  | .find _ key_ub | .insert _ key_ub _ | .remove _ key_ub => key_ub

/-- The bounds are `int`s, and those of an insert enclose a range. -/
structure Legal (op : Op V) : Prop where
  low : INT_MIN ≤ op.key_lb
  high : op.key_ub ≤ INT_MAX
  range : ∀ lb ub x, op = .insert lb ub x → lb < ub

end Op

inductive Ret (V : Type) where
  | bool (b : Bool)
  | pointer (value : Option V)
  deriving DecidableEq

/-- Where `find` returns to: its caller, or the loop of `insert` or `remove` that called it. -/
inductive Site (A : Type) where
  | find
  | insert (newNode : A)
  | link (newNode : A) (level : ℕ)
  | remove
  | unlink (nodeToRemove : A)
  deriving DecidableEq

inductive Pc (A V : Type) where
  | idle
  | allocate
  /-- `curr = Unmark(pred->next[level].load())` -/
  | load (site : Site A) (level : ℕ) (pred : A)
  /-- `succ = IsMarked(curr->next[level].load(), &marked)` -/
  | next (site : Site A) (level : ℕ) (pred curr : A)
  | snip (site : Site A) (level : ℕ) (pred curr : A) (succ : Option A)
  | store (newNode : A) (level : ℕ)
  | linkBottom (newNode : A)
  | link (newNode : A) (level : ℕ)
  | read (nodeToRemove : A) (level : ℕ)
  | mark (nodeToRemove : A) (level : ℕ) (succ : Option A)
  | readBottom (nodeToRemove : A)
  | markBottom (nodeToRemove : A) (succ : Option A)
  | check (nodeToRemove : A) (iMarkedIt : Bool)
  | done (ret : Ret V)
  deriving DecidableEq

/-- The operation of a thread and its two arrays. -/
structure Vars (A V : Type) where
  op : Op V
  preds : ℕ → A
  succs : ℕ → A

structure Local (A V : Type) extends Vars A V where
  pc : Pc A V

structure State (A V T : Type) where
  memory : Memory A V
  thread : T → Local A V

/-- `spurious` lets a weak CAS fail. -/
inductive Act (A V T : Type) where
  | call (t : T) (op : Op V)
  | allocate (t : T) (newNode : A) (topLevel : ℕ)
  | next (t : T) (spurious : Bool)
  | ret (t : T)

def Act.thread : Act A V T → T
  | .call t _ | .allocate t _ _ | .next t _ | .ret t => t

/-- Whether a weak CAS succeeds. -/
def cas [DecidableEq A] (m : Memory A V) (spurious : Bool) (a : A) (level : ℕ) (expected : Option A) :
    Bool :=
  !spurious && m.next a level = ⟨expected, false⟩

/-- The top of the `retry` loop. -/
def retry (c : Config A) (site : Site A) : Pc A V := .load site (MAX_LEVEL - 1) c.head

/-- The marking loop of `remove` below a level. -/
def below (nodeToRemove : A) : ℕ → Pc A V
  | 0 => .readBottom nodeToRemove
  | level + 1 => .read nodeToRemove (level + 1)

/-- The linking loop of `insert` from a level on. -/
def above (m : Memory A V) (newNode : A) (level : ℕ) : Pc A V :=
  if level ≤ (m.node newNode).topLevel then .link newNode level else .done (.bool true)

/-- The way on after `find`. -/
def found (m : Memory A V) (l : Vars A V) (b : Bool) : Site A → Pc A V
  | .find => .done (.bool b)
  | .insert newNode => if b then .done (.bool false) else .store newNode 0
  | .link newNode level => .link newNode level
  | .remove =>
    if b then below (l.succs 0) (m.node (l.succs 0)).topLevel else .done (.pointer none)
  | .unlink nodeToRemove => .done (.pointer (m.node nodeToRemove).value)

variable [DecidableEq A]

def Memory.setNext (m : Memory A V) (a : A) (level : ℕ) (p : Ptr A) : Memory A V :=
  { m with next := Function.update m.next a (Function.update (m.next a) level p) }

/-- The arrays after a level. -/
def Vars.stop (l : Vars A V) (level : ℕ) (pred curr : A) : Vars A V :=
  ⟨l.op, Function.update l.preds level pred, Function.update l.succs level curr⟩

def Local.goto (l : Local A V) (pc : Pc A V) : Local A V := { l with pc := pc }

/-- What a step of `find`, `insert` or `remove` does to the memory and to its thread. -/
def advance (c : Config A) (m : Memory A V) (l : Local A V) (spurious : Bool) :
    Option (Memory A V × Local A V) :=
  match l.pc with
  | .load site level pred =>
    match (m.next pred level).node with
    | some curr => some (m, l.goto (.next site level pred curr))
    | none => none
  | .next site level pred curr =>
    let p := m.next curr level
    if p.marked then some (m, l.goto (.snip site level pred curr p.node))
    else if (m.node curr).is_less_than l.op.key_lb l.op.key_ub then
      match p.node with
      | some succ => some (m, l.goto (.next site level curr succ))
      | none => none
    else
      let v := l.stop level pred curr
      match level with
      | 0 => some (m, ⟨v, found m v ((m.node curr).is_equal l.op.key_lb l.op.key_ub) site⟩)
      | level + 1 => some (m, ⟨v, .load site level pred⟩)
  | .snip site level pred curr succ =>
    if cas m spurious pred level (some curr) then
      some (m.setNext pred level ⟨succ, false⟩, l.goto (.load site level pred))
    else some (m, l.goto (retry c site))
  | .store newNode level =>
    let m' := m.setNext newNode level ⟨some (l.succs level), false⟩
    if level < (m.node newNode).topLevel then some (m', l.goto (.store newNode (level + 1)))
    else some (m', l.goto (.linkBottom newNode))
  | .linkBottom newNode =>
    if cas m spurious (l.preds 0) 0 (some (l.succs 0)) then
      some (m.setNext (l.preds 0) 0 ⟨some newNode, false⟩, l.goto (above m newNode 1))
    else some (m, l.goto (retry c (.insert newNode)))
  | .link newNode level =>
    if cas m spurious (l.preds level) level (some (l.succs level)) then
      some (m.setNext (l.preds level) level ⟨some newNode, false⟩,
        l.goto (above m newNode (level + 1)))
    else some (m, l.goto (retry c (.link newNode level)))
  | .read nodeToRemove level =>
    let p := m.next nodeToRemove level
    if p.marked then some (m, l.goto (below nodeToRemove (level - 1)))
    else some (m, l.goto (.mark nodeToRemove level p.node))
  | .mark nodeToRemove level succ =>
    if cas m spurious nodeToRemove level succ then
      some (m.setNext nodeToRemove level ⟨succ, true⟩, l.goto (.read nodeToRemove level))
    else some (m, l.goto (.read nodeToRemove level))
  | .readBottom nodeToRemove =>
    some (m, l.goto (.markBottom nodeToRemove (m.next nodeToRemove 0).node))
  | .markBottom nodeToRemove succ =>
    if cas m spurious nodeToRemove 0 succ then
      some (m.setNext nodeToRemove 0 ⟨succ, true⟩, l.goto (.check nodeToRemove true))
    else some (m, l.goto (.check nodeToRemove false))
  | .check nodeToRemove iMarkedIt =>
    let p := m.next (l.succs 0) 0
    if iMarkedIt then some (m, l.goto (retry c (.unlink nodeToRemove)))
    else if p.marked then some (m, l.goto (.done (.pointer none)))
    else some (m, l.goto (.markBottom nodeToRemove p.node))
  | .idle | .allocate | .done _ => none

variable [DecidableEq T]

def State.put (s : State A V T) (m : Memory A V) (t : T) (l : Local A V) : State A V T :=
  ⟨m, Function.update s.thread t l⟩

instance (op : Op V) : Decidable op.Legal :=
  match op with
  | .find lb ub => decidable_of_iff (INT_MIN ≤ lb ∧ ub ≤ INT_MAX)
    ⟨fun h => ⟨h.1, h.2, fun _ _ _ he => by cases he⟩, fun h => ⟨h.low, h.high⟩⟩
  | .remove lb ub => decidable_of_iff (INT_MIN ≤ lb ∧ ub ≤ INT_MAX)
    ⟨fun h => ⟨h.1, h.2, fun _ _ _ he => by cases he⟩, fun h => ⟨h.low, h.high⟩⟩
  | .insert lb ub x => decidable_of_iff (INT_MIN ≤ lb ∧ ub ≤ INT_MAX ∧ lb < ub)
    ⟨fun h => ⟨h.1, h.2.1, fun _ _ _ he => by cases he; exact h.2.2⟩,
      fun h => ⟨h.low, h.high, h.range _ _ _ rfl⟩⟩

def step (c : Config A) (s : State A V T) : Act A V T → Option (State A V T)
  | .call t op =>
    match (s.thread t).pc with
    | .idle =>
      if op.Legal then
        match op with
        | .insert _ _ _ => some (s.put s.memory t ⟨{ (s.thread t).toVars with op := op }, .allocate⟩)
        | .find _ _ => some (s.put s.memory t ⟨{ (s.thread t).toVars with op := op }, retry c .find⟩)
        | .remove _ _ => some (s.put s.memory t ⟨{ (s.thread t).toVars with op := op }, retry c .remove⟩)
      else none
    | _ => none
  | .allocate t newNode topLevel =>
    let l := s.thread t
    match l.pc, l.op with
    | .allocate, .insert lb ub x =>
      if newNode ∈ s.memory.allocated ∨ MAX_LEVEL ≤ topLevel then none
      else some (s.put
        ⟨Function.update s.memory.node newNode ⟨topLevel, lb, ub, x⟩,
          Function.update s.memory.next newNode fun _ => ⟨none, false⟩,
          newNode :: s.memory.allocated⟩ t (l.goto (retry c (.insert newNode))))
    | _, _ => none
  | .next t spurious =>
    (advance c s.memory (s.thread t) spurious).map fun x => s.put x.1 t x.2
  | .ret t =>
    match (s.thread t).pc with
    | .done _ => some (s.put s.memory t ((s.thread t).goto .idle))
    | _ => none

def initial (c : Config A) : State A V T where
  memory :=
    { node a := if a = c.head then ⟨MAX_LEVEL, INT_MIN, INT_MIN, none⟩
        else ⟨MAX_LEVEL, INT_MAX, INT_MAX, none⟩
      next a level := if a = c.head ∧ level < MAX_LEVEL then ⟨some c.tail, false⟩ else ⟨none, false⟩
      allocated := [c.head, c.tail] }
  thread _ := ⟨⟨.find 0 0, fun _ => c.head, fun _ => c.tail⟩, .idle⟩

def machine (c : Config A) : Machine (State A V T) (Act A V T) where
  init s := s = initial c
  step := step c

instance [Inhabited T] : Inhabited (Act A V T) := ⟨.ret default⟩

end ObjectCache.LockFree
