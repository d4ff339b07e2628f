import ObjectCache.Iht.LocalMap
import ObjectCache.Iht.ListTrie
import ObjectCache.Lib.Implements
import ObjectCache.Lib.MapHistory

/-! `iht_carumap` under any number of threads: one load, compare-and-swap or store of a lock at a time, and what
a thread does to the bucket whose lock it holds. -/

set_option linter.unusedSectionVars false

namespace ObjectCache.Iht.Local

open Lib

/-- The variables of the three loops. -/
structure Cursor (K V : Type) where
  op : MapOp K V
  curr : ℕ
  depth : ℕ
  count : ℕ

inductive Pc (K V : Type) where
  | idle
  | load (x : Cursor K V)
  | cas (x : Cursor K V)
  | descend (x : Cursor K V)
  | bucket (x : Cursor K V)
  | publish (x : Cursor K V)
  | unlock (x : Cursor K V) (ret : Option V)
  | done (op : MapOp K V) (ret : Option V)

structure State (K V T : Type) where
  table : Table K V
  pc : T → Pc K V

/-- `compare_exchange_weak` may fail where it could succeed. -/
inductive Act (K V T : Type) where
  | call (t : T) (op : MapOp K V)
  | next (t : T) (fails : Bool)
  | finish (t : T)

variable {K V T : Type}

/-- The bucket that a loop is at. -/
def Config.index (c : Config K) (x : Cursor K V) : ℕ := c.levelHash x.op.key (x.depth + 1) x.count

def Cursor.start (c : Config K) (s : Table K V) (op : MapOp K V) : Cursor K V := ⟨op, s.root, 1, c.plist_size⟩

def Table.setLock (t : Table K V) (p i : ℕ) (l : LockState) : Table K V :=
  t.setBucket p i ⟨(t.buckets p i).base, l⟩

def Table.setBase (t : Table K V) (p i : ℕ) (b : Base K V) : Table K V :=
  t.setBucket p i ⟨b, (t.buckets p i).lock⟩

variable [DecidableEq K] [DecidableEq T]

def State.put (s : State K V T) (m : Table K V) (t : T) (pc : Pc K V) : State K V T :=
  ⟨m, Function.update s.pc t pc⟩

/-- What an operation does to the bucket that it has locked. -/
def visit (c : Config K) (m : Table K V) (x : Cursor K V) : Option (Table K V × Pc K V) :=
  let i := c.index x
  match x.op, (m.buckets x.curr i).base with
  | _, .plist _ => none
  | .contains k, base => some (m, .unlock x (base.pairs.lookup k))
  | .remove _, .null => some (m, .unlock x none)
  | .remove k, .elist e =>
    if (e.lookup k).isSome then some (m.setBase x.curr i (.elist (e.remove k)), .unlock x (e.lookup k))
    else some (m, .unlock x none)
  | .insert k v, .null => some (m.setBase x.curr i (.elist (EList.elist_insert [] k v)), .unlock x none)
  | .insert k v, .elist e =>
    if (e.lookup k).isSome then some (m, .unlock x (e.lookup k))
    else if e.length < c.elist_size then
      some (m.setBase x.curr i (.elist (e.elist_insert k v)), .unlock x none)
    else
      let (m, p) := rehash c m x.curr x.count x.depth i
      some (m.setBase x.curr i (.plist p), .publish x)

def next (c : Config K) (s : State K V T) (t : T) (fails : Bool) : Option (State K V T) :=
  let m := s.table
  match s.pc t with
  | .load x =>
    match (m.buckets x.curr (c.index x)).lock with
    | .e_unlocked => some (s.put m t (.cas x))
    | .p_unlocked => some (s.put m t (.descend x))
    | .e_locked => some s
  | .cas x =>
    match (m.buckets x.curr (c.index x)).lock with
    | .e_unlocked =>
      if fails then some (s.put m t (.load x))
      else some (s.put (m.setLock x.curr (c.index x) .e_locked) t (.bucket x))
    -- a failed exchange leaves what it has found in `v`
    | .p_unlocked => some (s.put m t (.descend x))
    | .e_locked => some (s.put m t (.load x))
  | .descend x =>
    match (m.buckets x.curr (c.index x)).base with
    | .plist p => some (s.put m t (.load ⟨x.op, p, x.depth + 1, x.count * 2⟩))
    | .null | .elist _ => none
  | .bucket x => (visit c m x).map fun y => s.put y.1 t y.2
  | .publish x => some (s.put (m.setLock x.curr (c.index x) .p_unlocked) t (.load x))
  | .unlock x ret => some (s.put (m.setLock x.curr (c.index x) .e_unlocked) t (.done x.op ret))
  | .idle | .done _ _ => none

def step (c : Config K) (s : State K V T) : Act K V T → Option (State K V T)
  | .call t op =>
    match s.pc t with
    | .idle => some (s.put s.table t (.load (.start c s.table op)))
    | _ => none
  | .next t fails => next c s t fails
  | .finish t =>
    match s.pc t with
    | .done _ _ => some (s.put s.table t .idle)
    | _ => none

def machine (c : Config K) : Machine (State K V T) (Act K V T) where
  init s := s = ⟨.empty, fun _ => .idle⟩
  step := step c

def observe (s : State K V T) : Act K V T → Option (Event T (MapOp K V) (Option V))
  | .call t op => some (.call t op)
  | .next _ _ => none
  | .finish t =>
    match s.pc t with
    | .done _ ret => some (.ret t ret)
    | _ => none

/-- A rehash puts every key where the next level looks for it. -/
def Aligned (c : Config K) (s : State K V T) : Act K V T → Bool
  | .next t _ =>
    match s.pc t with
    | .bucket x =>
      match x.op, (s.table.buckets x.curr (c.index x)).base with
      | .insert k _, .elist e =>
        (e.lookup k).isSome || e.length < c.elist_size ||
          e.all fun kv => c.levelHash kv.1 (x.depth + 1) x.count = c.levelHash kv.1 (x.depth + 2) (x.count * 2)
      | _, _ => true
    | _ => true
  | .call _ _ | .finish _ => true

/-- Every step, with what it requires. -/
inductive Step (c : Config K) (s : State K V T) : Act K V T → State K V T → Prop
  | call {t op} : s.pc t = .idle → Step c s (.call t op) (s.put s.table t (.load (.start c s.table op)))
  | load {t fails x} : s.pc t = .load x → (s.table.buckets x.curr (c.index x)).lock = .e_unlocked →
      Step c s (.next t fails) (s.put s.table t (.cas x))
  | spin {t fails x} : s.pc t = .load x → (s.table.buckets x.curr (c.index x)).lock = .e_locked →
      Step c s (.next t fails) s
  | calcified {t fails x} : s.pc t = .load x ∨ s.pc t = .cas x →
      (s.table.buckets x.curr (c.index x)).lock = .p_unlocked →
      Step c s (.next t fails) (s.put s.table t (.descend x))
  | retry {t fails x} : s.pc t = .cas x → Step c s (.next t fails) (s.put s.table t (.load x))
  | acquire {t fails x} : s.pc t = .cas x → (s.table.buckets x.curr (c.index x)).lock = .e_unlocked →
      Step c s (.next t fails) (s.put (s.table.setLock x.curr (c.index x) .e_locked) t (.bucket x))
  | descend {t fails x p} : s.pc t = .descend x → (s.table.buckets x.curr (c.index x)).base = .plist p →
      Step c s (.next t fails) (s.put s.table t (.load ⟨x.op, p, x.depth + 1, x.count * 2⟩))
  | visit {t fails x m pc} : s.pc t = .bucket x → visit c s.table x = some (m, pc) →
      Step c s (.next t fails) (s.put m t pc)
  | publish {t fails x} : s.pc t = .publish x →
      Step c s (.next t fails) (s.put (s.table.setLock x.curr (c.index x) .p_unlocked) t (.load x))
  | unlock {t fails x ret} : s.pc t = .unlock x ret →
      Step c s (.next t fails) (s.put (s.table.setLock x.curr (c.index x) .e_unlocked) t (.done x.op ret))
  | finish {t op ret} : s.pc t = .done op ret → Step c s (.finish t) (s.put s.table t .idle)

variable {c : Config K} {s s' : State K V T} {t u : T} {x : Cursor K V} {m m' : Table K V} {pc : Pc K V}
  {p q i j : ℕ} {b : Base K V} {l : LockState} {f : K → Option V} {fails : Bool}

lemma step_next (h : next c s t fails = some s') : Step c s (.next t fails) s' := by
  rw [next] at h
  cases ht : s.pc t with
  | load x =>
    cases hl : (s.table.buckets x.curr (c.index x)).lock with
    | e_locked =>
      simp only [ht, hl, Option.some.injEq] at h
      subst h
      exact .spin ht hl
    | e_unlocked =>
      simp only [ht, hl, Option.some.injEq] at h
      subst h
      exact .load ht hl
    | p_unlocked =>
      simp only [ht, hl, Option.some.injEq] at h
      subst h
      exact .calcified (.inl ht) hl
  | cas x =>
    cases hl : (s.table.buckets x.curr (c.index x)).lock with
    | e_locked =>
      simp only [ht, hl, Option.some.injEq] at h
      subst h
      exact .retry ht
    | e_unlocked =>
      simp only [ht, hl] at h
      split_ifs at h
      · cases h
        exact .retry ht
      · cases h
        exact .acquire ht hl
    | p_unlocked =>
      simp only [ht, hl, Option.some.injEq] at h
      subst h
      exact .calcified (.inr ht) hl
  | descend x =>
    cases hb : (s.table.buckets x.curr (c.index x)).base with
    | plist p =>
      simp only [ht, hb, Option.some.injEq] at h
      subst h
      exact .descend ht hb
    | null => simp [ht, hb] at h
    | elist e => simp [ht, hb] at h
  | bucket x =>
    simp only [ht, Option.map_eq_some_iff] at h
    obtain ⟨⟨m, pc⟩, hv, rfl⟩ := h
    exact .visit ht hv
  | publish x =>
    simp only [ht, Option.some.injEq] at h
    subst h
    exact .publish ht
  | unlock x ret =>
    simp only [ht, Option.some.injEq] at h
    subst h
    exact .unlock ht
  | idle => simp [ht] at h
  | done op ret => simp [ht] at h

lemma step_cases {a : Act K V T} (h : step c s a = some s') : Step c s a s' := by
  cases a with
  | call t op =>
    cases ht : s.pc t with
    | idle =>
      simp only [step, ht, Option.some.injEq] at h
      subst h
      exact .call ht
    | _ => simp [step, ht] at h
  | next t fails => exact step_next h
  | finish t =>
    cases ht : s.pc t with
    | done op ret =>
      simp only [step, ht, Option.some.injEq] at h
      subst h
      exact .finish ht
    | _ => simp [step, ht] at h

end ObjectCache.Iht.Local
