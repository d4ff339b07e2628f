import ObjectCache.LockFree.Backbone
import ObjectCache.Lib.Window

/-! What a run of the skip list links and marks, and what every call knows of the time since it
began. -/

set_option linter.unusedSectionVars false

namespace ObjectCache.LockFree

open Lib StateTransition

variable {A V T : Type} [DecidableEq A] [DecidableEq T] {c : Config A}

/-- The node that a step links on the bottom level. -/
def links (s : State A V T) : Act A V T → Option A
  | .next t spurious =>
    let l := s.thread t
    match l.pc with
    | .linkBottom newNode =>
      if cas s.memory spurious (l.preds 0) 0 (some (l.succs 0)) then some newNode else none
    | _ => none
  | _ => none

/-- The node that a step marks on the bottom level. -/
def marks (s : State A V T) : Act A V T → Option A
  | .next t spurious =>
    match (s.thread t).pc with
    | .markBottom nodeToRemove succ =>
      if cas s.memory spurious nodeToRemove 0 succ then some nodeToRemove else none
    | _ => none
  | _ => none

def opens (t : T) : Act A V T → Prop
  | .call u _ => u = t
  | _ => False

instance (t : T) : DecidablePred (opens t : Act A V T → Prop) := fun a =>
  match a with
  | .call u _ => inferInstanceAs (Decidable (u = t))
  | .allocate _ _ _ | .next _ _ | .ret _ => .isFalse id

abbrev Trace (c : Config A) (V T : Type) [DecidableEq T] :=
  (machine c : Machine (State A V T) (Act A V T)).Run

variable (r : Trace c V T)

abbrev Trace.memory (i : ℕ) : Memory A V := (r.state i).memory

/-- The nodes that have been linked. -/
def Trace.linked : ℕ → Set A
  | 0 => {c.head, c.tail}
  | i + 1 => {n | links (r.state i) (r.act i) = some n} ∪ linked i

/-- A moment since the call of `t`. -/
def Trace.During (t : T) (i : ℕ) (p : ℕ → Prop) : Prop := Machine.Run.During r (opens t) i p

/-- A step since the call of `t`. -/
def Trace.Did (t : T) (i : ℕ) (p : ℕ → Prop) : Prop := Machine.Run.Did r (opens t) i p

/-- `t` links a node. -/
def LinksAt (t : T) (k : ℕ) : Prop := (r.act k).thread = t ∧ links (r.state k) (r.act k) ≠ none

/-- `t` marks a node. -/
def MarksAt (t : T) (k : ℕ) : Prop := (r.act k).thread = t ∧ marks (r.state k) (r.act k) ≠ none

def NoLink (t : T) (i : ℕ) : Prop := ¬ r.Did t i (LinksAt r t)

def NoMark (t : T) (i : ℕ) : Prop := ¬ r.Did t i (MarksAt r t)

/-- The call of `t` has linked one node, when no live node overlapped its range. -/
def HasLinked (t : T) (i : ℕ) (op : Op V) : Prop :=
  Machine.Run.Once r (opens t) i (LinksAt r t) ∧ r.Did t i fun k => (r.act k).thread = t ∧ ∃ n, links (r.state k) (r.act k) = some n ∧
    op = .insert ((r.memory k).node n).key_low ((r.memory k).node n).key_high
      ((r.memory k).node n).value ∧ Clear c (r.memory k) op.key_lb op.key_ub

/-- The call of `t` has marked one node, an overlapping one with this value. -/
def HasMarked (t : T) (i : ℕ) (op : Op V) (value : Option V) : Prop :=
  Machine.Run.Once r (opens t) i (MarksAt r t) ∧ r.Did t i fun k => (r.act k).thread = t ∧ ∃ n, marks (r.state k) (r.act k) = some n ∧
    ((r.memory k).node n).is_equal op.key_lb op.key_ub ∧ ((r.memory k).node n).value = value

/-- Another call has marked an overlapping node. -/
def Lost (t : T) (i : ℕ) (op : Op V) : Prop :=
  r.Did t i fun k => (r.act k).thread ≠ t ∧ ∃ n, marks (r.state k) (r.act k) = some n ∧
    ((r.memory k).node n).is_equal op.key_lb op.key_ub

/-- Some live node overlapped the range. -/
def Overlapped (t : T) (i : ℕ) (op : Op V) : Prop :=
  r.During t i fun k => ∃ n, Live c (r.memory k) n ∧
    ((r.memory k).node n).is_equal op.key_lb op.key_ub

def Cleared (t : T) (i : ℕ) (op : Op V) : Prop :=
  r.During t i fun k => Clear c (r.memory k) op.key_lb op.key_ub

/-- What the answer of a call says. -/
def Answer (t : T) (i : ℕ) (op : Op V) (ret : Ret V) : Prop :=
  match op with
  | .find _ _ => ret = .bool true ∧ Overlapped r t i op ∨ ret = .bool false ∧ Cleared r t i op
  | .insert _ _ _ => ret = .bool true ∧ HasLinked r t i op ∨
    ret = .bool false ∧ NoLink r t i ∧ Overlapped r t i op
  | .remove _ _ => (∃ value, ret = .pointer value ∧ HasMarked r t i op value) ∨
    ret = .pointer none ∧ NoMark r t i ∧ (Cleared r t i op ∨ Lost r t i op)

/-! ### What a call knows -/

section Knows

variable (t : T) (i : ℕ) (l : Vars A V)

/-- At some moment there was nothing between two nodes. -/
def Passed (a q : A) : Prop :=
  r.During t i fun k => ∀ lb ub, ((r.memory i).node a).key_high ≤ lb →
    ub ≤ ((r.memory i).node q).key_low → Clear c (r.memory k) lb ub

/-- There was nothing behind a node up to where its pointer leads now. -/
def Recent (a : A) : Prop := ∀ q b, (r.memory i).next a 0 = ⟨some q, b⟩ → Passed r t i a q

structure Arrays (level : ℕ) : Prop where
  pred : ∀ k, level ≤ k → k < MAX_LEVEL →
    l.preds k ∈ r.linked i ∧ k ≤ ((r.memory i).node (l.preds k)).topLevel
  succ : ∀ k, level ≤ k → k < MAX_LEVEL → Target c (r.linked i) (r.memory i) k (l.succs k)

/-- The arrays after a search that has found nothing. -/
structure Gap : Prop where
  arrays : Arrays r i l 0
  low : ((r.memory i).node (l.preds 0)).key_high ≤ l.op.key_lb
  high : l.op.key_ub ≤ ((r.memory i).node (l.succs 0)).key_low

/-- The node of an insert. -/
structure Describes (n : A) : Prop where
  op : l.op = .insert ((r.memory i).node n).key_low ((r.memory i).node n).key_high
    ((r.memory i).node n).value
  top : ((r.memory i).node n).topLevel < MAX_LEVEL

structure New (n : A) : Prop extends Describes r i l n where
  own : Private c (r.linked i) (r.memory i) n
  no_link : NoLink r t i

structure Inserted (n : A) : Prop extends Describes r i l n where
  target : ∀ k ≤ ((r.memory i).node n).topLevel, Target c (r.linked i) (r.memory i) k n
  did : HasLinked r t i l.op

/-- The node that a remove is about to mark. -/
structure Victim (n : A) : Prop where
  op : ∃ lb ub, l.op = .remove lb ub
  succ : l.succs 0 = n
  linked : n ∈ r.linked i
  not_head : n ≠ c.head
  not_tail : n ≠ c.tail
  equal : ((r.memory i).node n).is_equal l.op.key_lb l.op.key_ub
  no_mark : NoMark r t i
  lost : ((r.memory i).next n 0).marked → Lost r t i l.op

def Site.Ok : Site A → Prop
  | .find => ∃ lb ub, l.op = .find lb ub
  | .insert newNode => New r t i l newNode
  | .link newNode level => Inserted r t i l newNode ∧ 1 ≤ level ∧
    level ≤ ((r.memory i).node newNode).topLevel
  | .remove => (∃ lb ub, l.op = .remove lb ub) ∧ NoMark r t i
  | .unlink nodeToRemove => (∃ lb ub, l.op = .remove lb ub) ∧ nodeToRemove ∈ r.linked i ∧
    HasMarked r t i l.op ((r.memory i).node nodeToRemove).value

/-- A search on a level, behind `pred`. -/
structure Searches (site : Site A) (level : ℕ) (pred : A) : Prop where
  site : site.Ok r t i l
  linked : pred ∈ r.linked i
  high : ((r.memory i).node pred).key_high ≤ l.op.key_lb
  top : level ≤ ((r.memory i).node pred).topLevel
  max : level < MAX_LEVEL
  arrays : Arrays r i l (level + 1)
  recent : Recent r t i pred

/-- The levels above are marked. -/
def MarkedAbove (n : A) (level : ℕ) : Prop :=
  ∀ k, level < k → k ≤ ((r.memory i).node n).topLevel → ((r.memory i).next n k).marked

def PcOk : Pc A V → Prop
  | .idle => True
  | .allocate => (∃ lb ub x, l.op = .insert lb ub x) ∧ NoLink r t i
  | .load site level pred => Searches r t i l site level pred
  | .next site level pred curr => Searches r t i l site level pred ∧
    Target c (r.linked i) (r.memory i) level curr ∧ (level = 0 → Passed r t i pred curr)
  | .snip site level pred curr succ => Searches r t i l site level pred ∧
    Target c (r.linked i) (r.memory i) level curr ∧ (r.memory i).next curr level = ⟨succ, true⟩
  | .store newNode level => New r t i l newNode ∧ Gap r i l ∧
    (level ≤ ((r.memory i).node newNode).topLevel ∧
      ∀ k < level, (r.memory i).next newNode k = ⟨some (l.succs k), false⟩)
  | .linkBottom newNode => New r t i l newNode ∧ Gap r i l ∧
    ∀ k ≤ ((r.memory i).node newNode).topLevel,
      (r.memory i).next newNode k = ⟨some (l.succs k), false⟩
  | .link newNode level => (Inserted r t i l newNode ∧ 1 ≤ level ∧
    level ≤ ((r.memory i).node newNode).topLevel) ∧ Arrays r i l 0
  | .read nodeToRemove level => Victim r t i l nodeToRemove ∧ 1 ≤ level ∧
    MarkedAbove r i nodeToRemove level
  | .mark nodeToRemove level _ => Victim r t i l nodeToRemove ∧ 1 ≤ level ∧
    MarkedAbove r i nodeToRemove level
  | .readBottom nodeToRemove | .markBottom nodeToRemove _ | .check nodeToRemove false =>
    Victim r t i l nodeToRemove ∧ MarkedAbove r i nodeToRemove 0
  | .check nodeToRemove true => Site.Ok r t i l (.unlink nodeToRemove)
  | .done ret => Answer r t i l.op ret

/-- The node that only the thread knows. -/
def Site.owns : Site A → Option A
  | .insert newNode => some newNode
  | _ => none

def Pc.owns : Pc A V → Option A
  | .load site _ _ | .next site _ _ _ | .snip site _ _ _ _ => site.owns
  | .store newNode _ | .linkBottom newNode => some newNode
  | _ => none

end Knows

structure Inv (i : ℕ) : Prop where
  shape : Shape c (r.linked i) (r.memory i)
  legal : ∀ t, ((r.state i).thread t).op.Legal
  ok : ∀ t, PcOk r t i ((r.state i).thread t).toVars ((r.state i).thread t).pc
  owns : ∀ {t u n}, ((r.state i).thread t).pc.owns = some n →
    ((r.state i).thread u).pc.owns = some n → t = u

end ObjectCache.LockFree
