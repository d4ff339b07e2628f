import ObjectCache.Cache.Buffers
import ObjectCache.Lib.Counting

/-! The account of the buffers without locks and addresses: where every counter is, who answers
for every buffer, and the moves between them. -/

namespace ObjectCache.Cache.Buffers

open Lib

set_option linter.unusedSectionVars false

/-- How far the holder of a line's lock has come in replacing its buffer. -/
inductive Phase where
  | kept
  | fetched (b : ℕ)
  | dropped (b : ℕ) (zero : Bool)
  | gone (b : ℕ)

def Phase.data : Phase → Option ℕ
  | .kept => none
  | .fetched b | .dropped b _ | .gone b => some b

def Phase.isDropped : Phase → Bool
  | .dropped _ _ => true
  | _ => false

def Phase.isGone : Phase → Bool
  | .gone _ => true
  | _ => false

structure LedgerLine where
  buf : Option ℕ
  ref : Ref
  phase : Phase

/-- What a thread answers for. -/
inductive Role where
  | free
  | hand (task : DeallocTask)
  | pending (obj : Option ℕ) (ref : Ref)

structure Ledger (T : Type) where
  line : ℕ → LedgerLine
  role : T → Role
  store : Store T

/-- Where a counter is, and the buffer it counts the references to. -/
inductive Place (T : Type) where
  | unmade
  | pooled (t : T)
  | line (i : ℕ) (b : Option ℕ)
  | limbo (t : T) (b : ℕ)
  | hand (t : T) (b : ℕ)

def Place.buffer {T : Type} : Place T → Option ℕ
  | .unmade | .pooled _ => none
  | .line _ b => b
  | .limbo _ b | .hand _ b => some b

/-- Who answers for a buffer. -/
inductive Custody (T : Type) where
  | unfetched
  | reading (i : ℕ)
  | counted (ref : Ref)
  | temp (k : ℕ)
  | deallocated

variable {T : Type} [DecidableEq T]

def CachedObject.counts (ref : Ref) : CachedObject → Bool
  | .counted _ r => r = ref
  | _ => false

def Role.returns (ref : Ref) : Role → Bool
  | .pending _ r => r = ref
  | _ => false

namespace Ledger

def setStore (l : Ledger T) (store : Store T) : Ledger T := { l with store }

def setRole (l : Ledger T) (t : T) (r : Role) : Ledger T :=
  { l with role := Function.update l.role t r }

def setLine (l : Ledger T) (i : ℕ) (x : LedgerLine) : Ledger T :=
  { l with line := Function.update l.line i x }

def setPhase (l : Ledger T) (i : ℕ) (phase : Phase) : Ledger T :=
  l.setLine i { l.line i with phase }

@[simp] lemma setStore_line (l : Ledger T) (s : Store T) : (l.setStore s).line = l.line := rfl
@[simp] lemma setStore_role (l : Ledger T) (s : Store T) : (l.setStore s).role = l.role := rfl
@[simp] lemma setStore_store (l : Ledger T) (s : Store T) : (l.setStore s).store = s := rfl
@[simp] lemma setRole_line (l : Ledger T) (t : T) (r : Role) : (l.setRole t r).line = l.line := rfl
@[simp] lemma setRole_role (l : Ledger T) (t : T) (r : Role) :
    (l.setRole t r).role = Function.update l.role t r := rfl
@[simp] lemma setRole_store (l : Ledger T) (t : T) (r : Role) :
    (l.setRole t r).store = l.store := rfl
@[simp] lemma setLine_line (l : Ledger T) (i : ℕ) (x : LedgerLine) :
    (l.setLine i x).line = Function.update l.line i x := rfl
@[simp] lemma setLine_role (l : Ledger T) (i : ℕ) (x : LedgerLine) :
    (l.setLine i x).role = l.role := rfl
@[simp] lemma setLine_store (l : Ledger T) (i : ℕ) (x : LedgerLine) :
    (l.setLine i x).store = l.store := rfl

/-- A counter is in a line until the line's holder has put it elsewhere. -/
def At (l : Ledger T) (ref : Ref) : Place T → Prop
  | .unmade => ∃ n, ref = .generated n ∧ l.store.next_ref ≤ n
  | .pooled t => ref ∈ l.store.reference_pool t
  | .line i b => (l.line i).phase.isGone = false ∧ (l.line i).ref = ref ∧ (l.line i).buf = b
  | .limbo t b => ∃ task ∈ l.store.dealloc_pool t, task.ref_counter = ref ∧ task.local_ptr = some b
  | .hand t b => ∃ task, l.role t = .hand task ∧ task.ref_counter = ref ∧ task.local_ptr = some b

def Held (l : Ledger T) (b : ℕ) : Custody T → Prop
  | .unfetched => l.store.next_buffer ≤ b
  | .reading i => (l.line i).phase.data = some b
  | .counted ref => ∃ d, l.At ref d ∧ d.buffer = some b
  | .temp k => ∃ pre, l.store.objects[k]? = some (.temp (.fetched b) pre)
  | .deallocated => b ∈ l.store.deallocations

/-- The reference that the line itself counts for. -/
def share (l : Ledger T) : Place T → ℤ
  | .line i b => (if b.isSome then 1 else 0) - if (l.line i).phase.isDropped then 1 else 0
  | _ => 0

/-- The counter, or the object, of a `CachedObject`, or of one that is about to be returned. -/
def Uses (l : Ledger T) (obj : Option ℕ) (ref : Ref) : Prop :=
  .counted obj ref ∈ l.store.objects ∨ ∃ t, l.role t = .pending obj ref

variable [Fintype T]

def references (l : Ledger T) (ref : Ref) : ℕ :=
  l.store.objects.countP (·.counts ref) + (Finset.univ.filter fun t => (l.role t).returns ref).card

def Named (l : Ledger T) (obj : Option ℕ) (ref : Ref) : Prop :=
  ∃ d b, obj = some b ∧ l.At ref d ∧ d.buffer = some b

/-- Every counter is in one place, one party answers for every buffer, and an object is on a
buffer that its counter belongs to. -/
structure Placed (l : Ledger T) : Prop where
  refs : ∀ ref, ∃! d, l.At ref d
  buffers : ∀ b, ∃! c, l.Held b c
  named : ∀ obj ref, l.Uses obj ref → l.Named obj ref

/-- The books are in order: also, a counter in use is what its line and the objects make up. -/
structure Books (l : Ledger T) : Prop extends Placed l where
  line : ∀ i b, l.At (l.line i).ref (.line i b) →
    l.store.counter (l.line i).ref = l.share (.line i b) + l.references (l.line i).ref
  limbo : ∀ t, ∀ task ∈ l.store.dealloc_pool t, task.local_ptr ≠ none ∧
    l.store.counter task.ref_counter = l.references task.ref_counter
  hand : ∀ t task, l.role t = .hand task → task.local_ptr ≠ none ∧
    l.store.counter task.ref_counter = 0 ∧ l.references task.ref_counter = 0
  zero : ∀ i b, (l.line i).phase = .dropped b true → l.references (l.line i).ref = 0
  limbo_nodup : ∀ t, ((l.store.dealloc_pool t).map (·.ref_counter)).Nodup
  pool_nodup : ∀ t, (l.store.reference_pool t).Nodup
  log : l.store.deallocations.Nodup

/-- One move of the account. -/
inductive Step : Ledger T → Ledger T → Prop
  | rotate {l t task tasks} : l.store.dealloc_pool t = task :: tasks →
      Step l (l.setStore (l.store.setDeallocPool t (tasks ++ [task])))
  | take {l t task tasks} : l.role t = .free → l.store.dealloc_pool t = task :: tasks →
      l.store.counter task.ref_counter = 0 →
      Step l ((l.setStore (l.store.setDeallocPool t tasks)).setRole t (.hand task))
  | free {l t task} : l.role t = .hand task →
      Step l ((l.setStore ((l.store.deallocate task.local_ptr).releaseRef t
        task.ref_counter)).setRole t .free)
  | fetch {l i} : (l.line i).phase = .kept →
      Step l ((l.setStore l.store.countBuffer).setPhase i (.fetched l.store.next_buffer))
  | decrement {l i b} : (l.line i).phase = .fetched b →
      Step l ((l.setStore (l.store.setCounter (l.line i).ref
        (l.store.counter (l.line i).ref - 1))).setPhase i (.dropped b false))
  | zero {l i b} : (l.line i).phase = .dropped b false → l.store.counter (l.line i).ref = 0 →
      Step l (l.setPhase i (.dropped b true))
  | enqueue {l i b task} (t : T) : (l.line i).phase = .dropped b false → (l.line i).buf ≠ none →
      task.local_ptr = (l.line i).buf → task.ref_counter = (l.line i).ref →
      Step l ((l.setStore (l.store.setDeallocPool t (l.store.dealloc_pool t ++ [task]))).setPhase i
        (.gone b))
  | recycle {l i b} (t : T) : (l.line i).phase = .dropped b false → (l.line i).buf = none →
      Step l ((l.setStore (l.store.releaseRef t (l.line i).ref)).setPhase i (.gone b))
  | freeOld {l i b} (t : T) : (l.line i).phase = .dropped b true →
      Step l ((l.setStore ((l.store.deallocate (l.line i).buf).releaseRef t
        (l.line i).ref)).setPhase i (.gone b))
  | install {l i b} (t : T) : (l.line i).phase = .gone b →
      Step l ((l.setStore ((l.store.fetchRef t).2.setCounter (l.store.fetchRef t).1 1)).setLine i
        ⟨some b, (l.store.fetchRef t).1, .kept⟩)
  | increment {l t i b} : l.role t = .free → (l.line i).phase = .kept → (l.line i).buf = some b →
      Step l ((l.setStore (l.store.setCounter (l.line i).ref
        (l.store.counter (l.line i).ref + 1))).setRole t (.pending (some b) (l.line i).ref))
  | finish {l t obj ref} : l.role t = .pending obj ref →
      Step l ((l.setStore (l.store.construct (.counted obj ref))).setRole t .free)
  | temp {l} : Step l (l.setStore
      (l.store.countBuffer.construct (.temp (.fetched l.store.next_buffer) none)))
  | construct {l} (o : CachedObject) : (∀ obj ref, o ≠ .counted obj ref) →
      (∀ b pre, o ≠ .temp (.fetched b) pre) → Step l (l.setStore (l.store.construct o))
  | drop {l k o} : l.store.objects[k]? = some o →
      Step l (l.setStore ((l.store.drop o).setObject k .empty))
  | move {l k j o} : k ≠ j → l.store.objects[k]? = some .empty → l.store.objects[j]? = some o →
      Step l (l.setStore ((l.store.setObject k o).setObject j .empty))

end Ledger

end ObjectCache.Cache.Buffers
