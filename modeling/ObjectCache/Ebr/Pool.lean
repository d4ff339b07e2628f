import ObjectCache.Lib.Transition
import Mathlib.Algebra.Group.Nat.Defs
import Mathlib.Data.List.FinRange
import Mathlib.Tactic.Common

/-! `EBRObjectPool`: the epoch counters of a ring of nodes and the limbo lists of their threads,
one shared access of `match_version` at a time. -/

namespace ObjectCache.Ebr

open Lib

/-- The three free lists of a thread, oldest first. -/
@[ext] structure LimboLists (Obj : Type) where
  first : List Obj
  second : List Obj
  third : List Obj

namespace LimboLists

variable {Obj : Type}

def empty : LimboLists Obj := ⟨[], [], []⟩

def rotate (l : LimboLists Obj) : LimboLists Obj := ⟨l.second, l.third, l.first⟩

def all (l : LimboLists Obj) : List Obj := l.first ++ l.second ++ l.third

end LimboLists

/-- A `long` stored in an `int`. -/
def toInt (version : ℕ) : ℤ := Int.bmod version (2 ^ 32)

/-- The ring, and the registered threads of each node in the order of their ids. -/
structure Config (T : Type) where
  nodes : ℕ
  home : T → Fin nodes
  members : Fin nodes → List T
  mem_members : ∀ n t, t ∈ members n ↔ home t = n
  ops_per_epoch : ℕ

/-- Where a thread stands in `match_version`, with the `new_version` it has computed. -/
inductive Pc (T : Type) where
  | operating
  | readVersion
  | storeSlot (new_version : ℕ)
  | checkSlots (new_version : ℕ) (left : List T)
  | loadAt (new_version : ℕ)
  | exchangeAt (new_version : ℕ)
  | incCycles (new_version : ℕ)
  | writeNext (new_version : ℕ)

structure State {T : Type} (c : Config T) (Obj : Type) where
  my_version : Fin c.nodes → ℕ
  at_version : Fin c.nodes → ℤ
  cycles : Fin c.nodes → ℕ
  /-- Writes on their way from a node to its successor, oldest first. -/
  sent : Fin c.nodes → List ℕ
  thread_slots : T → ℕ
  counter : T → ℕ
  limbo : T → LimboLists Obj
  pc : T → Pc T

/-- `allocate` carries the object that the memory pool hands out if the list is empty; `deliver`
completes one of the writes a node has under way. -/
inductive Act {T : Type} (c : Config T) (Obj : Type) where
  | deallocate (t : T) (obj : Obj)
  | requeue (t : T) (obj : Obj)
  | allocate (t : T) (fresh : Obj)
  | matchVersion (t : T) (override_epoch : Bool)
  | next (t : T)
  | deliver (n : Fin c.nodes) (position : ℕ)

variable {T Obj : Type} [DecidableEq T] [DecidableEq Obj]

/-- The node whose version a node writes; a single node is linked to itself. -/
def Config.next (c : Config T) (n : Fin c.nodes) : Fin c.nodes :=
  ⟨(n.val + 1) % c.nodes, Nat.mod_lt _ (Nat.zero_lt_of_lt n.isLt)⟩

namespace State

variable {c : Config T}

def setPc (s : State c Obj) (t : T) (pc : Pc T) : State c Obj :=
  { s with pc := Function.update s.pc t pc }

def setLimbo (s : State c Obj) (t : T) (l : LimboLists Obj) : State c Obj :=
  { s with limbo := Function.update s.limbo t l }

/-- No thread has the object on a free list. -/
def unlisted (s : State c Obj) (obj : Obj) : Bool :=
  (List.finRange c.nodes).all fun n => (c.members n).all fun t => obj ∉ (s.limbo t).all

/-- What `allocate` returns. -/
def allocated (s : State c Obj) (t : T) (fresh : Obj) : Obj :=
  (s.limbo t).first.headD fresh

end State

/-- One shared access of `match_version`; `counter` and the free lists are the thread's own. -/
def matchStep {c : Config T} (s : State c Obj) (t : T) : Option (State c Obj) :=
  let n := c.home t
  match s.pc t with
  | .operating => none
  | .readVersion => some (s.setPc t (.storeSlot (s.my_version n + 1)))
  | .storeSlot v =>
    if s.thread_slots t < v then
      some (({ s with thread_slots := Function.update s.thread_slots t v }.setLimbo t
        (s.limbo t).rotate).setPc t (.checkSlots v (c.members n)))
    else some (s.setPc t (.checkSlots v (c.members n)))
  | .checkSlots v [] => some (s.setPc t (.loadAt v))
  | .checkSlots v (u :: us) =>
    some (s.setPc t (if s.thread_slots u ≠ v then .operating else .checkSlots v us))
  | .loadAt v => some (s.setPc t (if s.at_version n < v then .exchangeAt v else .operating))
  | .exchangeAt v =>
    some ({ s with at_version := Function.update s.at_version n (toInt v) }.setPc t
      (if s.at_version n ≠ v then .incCycles v else .operating))
  | .incCycles v =>
    some ({ s with cycles := Function.update s.cycles n (s.cycles n + 1) }.setPc t (.writeNext v))
  | .writeNext v =>
    if c.next n = n then
      some ({ s with my_version := Function.update s.my_version n v }.setPc t .operating)
    else some ({ s with sent := Function.update s.sent n (s.sent n ++ [v]) }.setPc t .operating)

def step {c : Config T} (s : State c Obj) : Act c Obj → Option (State c Obj)
  | .deallocate t obj =>
    match s.pc t, s.unlisted obj with
    | .operating, true =>
      some (s.setLimbo t { s.limbo t with third := (s.limbo t).third ++ [obj] })
    | _, _ => none
  | .requeue t obj =>
    match s.pc t, s.unlisted obj with
    | .operating, true =>
      some (s.setLimbo t { s.limbo t with first := (s.limbo t).first ++ [obj] })
    | _, _ => none
  | .allocate t fresh =>
    match s.pc t, (s.limbo t).first, s.unlisted fresh with
    | .operating, [], true => some s
    | .operating, _ :: rest, _ => some (s.setLimbo t { s.limbo t with first := rest })
    | _, _, _ => none
  | .matchVersion t override_epoch =>
    match s.pc t with
    | .operating =>
      let count := s.counter t + 1
      let s := { s with counter := Function.update s.counter t count }
      if override_epoch ∨ count % c.ops_per_epoch ≠ 0 then some s
      else some (s.setPc t .readVersion)
    | _ => none
  | .next t => matchStep s t
  | .deliver n i =>
    match (s.sent n)[i]? with
    | none => none
    | some v =>
      some { s with
        my_version := Function.update s.my_version (c.next n) v
        sent := Function.update s.sent n ((s.sent n).eraseIdx i) }

def Initial {c : Config T} (s : State c Obj) : Prop :=
  (∀ n, s.my_version n = 0 ∧ s.at_version n = 0 ∧ s.cycles n = 0 ∧ s.sent n = []) ∧
    ∀ t, s.thread_slots t = 0 ∧ s.counter t = 0 ∧ s.limbo t = .empty ∧ s.pc t = .operating

def machine (c : Config T) (Obj : Type) [DecidableEq Obj] : Machine (State c Obj) (Act c Obj) where
  init := Initial
  step := step

end ObjectCache.Ebr
