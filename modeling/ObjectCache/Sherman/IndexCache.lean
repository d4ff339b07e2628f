import ObjectCache.LockFree.Get
import ObjectCache.Sherman.Node

/-! `IndexCache`: the pages above the leaves, kept in a `LockFreeSkiplist` under their ranges. A step is an
access to the skip list or to a counter of the cache. -/

namespace ObjectCache.Sherman

open Lib Btree

def BNode.keyInRange {B : Type} (n : BNode B) (key : Key) : Bool :=
  n.key_low < key && key ≤ n.key_high && !n.is_deleted

namespace IndexCache

variable {A B T : Type}

structure Config (A : Type) where
  list : LockFree.Config A
  degree : ℕ
  all_page_cnt : ℤ

/-- `found` holds what `search_from_cache` has stored in `*addr`, if it has returned true. -/
inductive Ret (B : Type) where
  | added (b : Bool)
  | found (addr : Option (Option B))
  | invalidated (b : Bool)

/-- Where a thread stands. `evicts` says that the removal is that of an eviction. -/
inductive Pc (B : Type) where
  | idle
  /-- In `skiplist->insert`. -/
  | insert
  /-- `skiplist_success_adds.fetch_add(1)` -/
  | countAdd
  /-- `skiplist_room_entries.fetch_sub(1)` -/
  | takeRoom
  /-- `k = rand_r(&seed) % (1000ull * define::MB)`, with the first entry and its frequency -/
  | choose (e1 : Option (BNode B × ℕ))
  /-- In the `skiplist->get` of `get_a_random_entry`. -/
  | pick (e1 : Option (BNode B × ℕ))
  | evict (victim : BNode B)
  /-- In `skiplist->remove`. -/
  | remove (evicts : Bool)
  /-- `skiplist_room_entries.fetch_add(1)` -/
  | giveBack (evicts : Bool)
  /-- In the `skiplist->get` of `search_from_cache`. -/
  | search (k : Key)
  | done (ret : Ret B)

structure State (A B T : Type) where
  skiplist : LockFree.Get.State A (BNode B) T
  skiplist_room_entries : ℤ
  skiplist_success_adds : ℤ
  pc : T → Pc B

inductive Act (A B T : Type) where
  | add (t : T) (page : BNode B)
  | search (t : T) (k : Key)
  | invalidate (t : T) (key : Key)
  /-- An access inside a call of the skip list. -/
  | skiplist (a : LockFree.Get.Act A (BNode B) T)
  | choose (t : T) (k : ℕ)
  | next (t : T)
  | ret (t : T)

/-- Not a call of the skip list and not a return from it. -/
def inner : LockFree.Get.Act A (BNode B) T → Bool
  | .list (.allocate _ _ _) | .list (.next _ _) | .next _ => true
  | _ => false

/-- The loop of `search_from_cache` over the keys, with what follows it. -/
def addrOf (degree : ℕ) (page : BNode B) (k : Key) : Option B :=
  match (List.range (SIZE degree)).find? fun i => k ≤ page.keys i with
  | some i => page.ptrs i
  | none => page.ptrs (SIZE degree)

/-- What `search_from_cache` makes of the entry; no accesses stand for -1. -/
def searched (degree : ℕ) (k : Key) : Option (BNode B) → Option ℤ → Option (Option B)
  | some page, some accesses =>
    if accesses = -1 then none
    else if page.keyInRange k then some (addrOf degree page k)
    else none
  | _, _ => none

/-- `uint64_t freq = accesses`. -/
def frequency (accesses : ℤ) : ℕ := (accesses % 2 ^ 64).toNat

/-- Where `get_a_random_entry` goes, and `evict_one` with it. -/
def picked (e1 : Option (BNode B × ℕ)) : Option (BNode B) → Option ℤ → Pc B
  | some page, some accesses =>
    if accesses = -1 then .choose e1
    else
      match e1 with
      | none => .choose (some (page, frequency accesses))
      | some (page1, freq1) => .evict (if freq1 < frequency accesses then page1 else page)
  | _, _ => .choose e1

/-- What the caller of `invalidate` returns. -/
def removed (evicts b : Bool) : Pc B := .done (if evicts then .added true else .invalidated b)

set_option linter.unusedSectionVars false

variable [DecidableEq A] [DecidableEq T]

def State.put (s : State A B T) (skiplist : LockFree.Get.State A (BNode B) T) (t : T) (pc : Pc B) :
    State A B T :=
  { s with skiplist, pc := Function.update s.pc t pc }

/-- A call of the skip list or a return from it. -/
def enter (c : Config A) (s : State A B T) (a : LockFree.Get.Act A (BNode B) T) (t : T) (pc : Pc B) :
    Option (State A B T) :=
  (LockFree.Get.step c.list s.skiplist a).map fun skiplist => s.put skiplist t pc

def next (c : Config A) (s : State A B T) (t : T) : Option (State A B T) :=
  match s.pc t with
  | .insert =>
    match (s.skiplist.list.thread t).pc with
    | .done (.bool b) => enter c s (.list (.ret t)) t (if b then .countAdd else .done (.added false))
    | _ => none
  | .countAdd =>
    some { s.put s.skiplist t .takeRoom with skiplist_success_adds := s.skiplist_success_adds + 1 }
  | .takeRoom =>
    let v := s.skiplist_room_entries
    some { s.put s.skiplist t (if v ≤ 0 then .choose none else .done (.added true)) with
      skiplist_room_entries := v - 1 }
  | .pick e1 =>
    match s.skiplist.get t with
    | .done result accesses => enter c s (.ret t) t (picked e1 result accesses)
    | _ => none
  | .evict victim => enter c s (.list (.call t (.remove victim.key_low victim.key_high))) t (.remove true)
  | .remove evicts =>
    match (s.skiplist.list.thread t).pc with
    | .done (.pointer (some _)) => enter c s (.list (.ret t)) t (.giveBack evicts)
    | .done (.pointer none) => enter c s (.list (.ret t)) t (removed evicts false)
    | _ => none
  | .giveBack evicts =>
    some { s.put s.skiplist t (removed evicts true) with
      skiplist_room_entries := s.skiplist_room_entries + 1 }
  | .search k =>
    match s.skiplist.get t with
    | .done result accesses => enter c s (.ret t) t (.done (.found (searched c.degree k result accesses)))
    | _ => none
  | .idle | .choose _ | .done _ => none

def step (c : Config A) (s : State A B T) : Act A B T → Option (State A B T)
  | .add t page =>
    match s.pc t with
    | .idle => enter c s (.list (.call t (.insert page.key_low page.key_high (some page)))) t .insert
    | _ => none
  | .search t k =>
    match s.pc t with
    | .idle => enter c s (.get t k true) t (.search k)
    | _ => none
  | .invalidate t key =>
    match s.pc t with
    | .idle => enter c s (.list (.call t (.remove key key))) t (.remove false)
    | _ => none
  | .skiplist a =>
    if inner a then (LockFree.Get.step c.list s.skiplist a).map fun skiplist => { s with skiplist }
    else none
  | .choose t k =>
    match s.pc t with
    | .choose e1 => if k < 1000 * (1024 * 1024) then enter c s (.get t k true) t (.pick e1) else none
    | _ => none
  | .next t => next c s t
  | .ret t =>
    match s.pc t with
    | .done _ => some (s.put s.skiplist t .idle)
    | _ => none

def initial (c : Config A) : State A B T where
  skiplist := LockFree.Get.initial c.list
  skiplist_room_entries := c.all_page_cnt
  skiplist_success_adds := 0
  pc _ := .idle

def machine (c : Config A) : Machine (State A B T) (Act A B T) where
  init s := s = initial c
  step := step c

/-! ### Steps -/

/-- A call of the skip list's `insert` or `remove`, and where the thread goes. -/
inductive Calls (s : State A B T) (t : T) : Act A B T → LockFree.Op (BNode B) → Pc B → Prop
  | add {page} : s.pc t = .idle →
      Calls s t (.add t page) (.insert page.key_low page.key_high (some page)) .insert
  | invalidate {key} : s.pc t = .idle → Calls s t (.invalidate t key) (.remove key key) (.remove false)
  | evict {victim} : s.pc t = .evict victim →
      Calls s t (.next t) (.remove victim.key_low victim.key_high) (.remove true)

/-- What the thread makes of the answer of `insert` or `remove`. -/
inductive Answers (s : State A B T) (t : T) : LockFree.Ret (BNode B) → Pc B → Prop
  | inserted : s.pc t = .insert → Answers s t (.bool true) .countAdd
  | refused : s.pc t = .insert → Answers s t (.bool false) (.done (.added false))
  | removed {evicts page} : s.pc t = .remove evicts → Answers s t (.pointer (some page)) (.giveBack evicts)
  | missed {evicts} : s.pc t = .remove evicts →
      Answers s t (.pointer none) (IndexCache.removed evicts false)

/-- A call of the skip list's `get` or the return from it. -/
inductive Looks (c : Config A) (s : State A B T) (t : T) :
    Act A B T → LockFree.Get.Act A (BNode B) T → Pc B → Prop
  | search {k} : s.pc t = .idle → Looks c s t (.search t k) (.get t k true) (.search k)
  | choose {e1} {k : ℕ} : s.pc t = .choose e1 → k < 1000 * (1024 * 1024) →
      Looks c s t (.choose t k) (.get t k true) (.pick e1)
  | picked {e1 result accesses} : s.pc t = .pick e1 → s.skiplist.get t = .done result accesses →
      Looks c s t (.next t) (.ret t) (IndexCache.picked e1 result accesses)
  | searched {k result accesses} : s.pc t = .search k → s.skiplist.get t = .done result accesses →
      Looks c s t (.next t) (.ret t) (.done (.found (IndexCache.searched c.degree k result accesses)))

inductive Step (c : Config A) (s : State A B T) : Act A B T → State A B T → Prop
  | call {a t op pc skiplist} : Calls s t a op pc →
      LockFree.Get.step c.list s.skiplist (.list (.call t op)) = some skiplist →
      Step c s a (s.put skiplist t pc)
  | inner {a skiplist} : inner a → LockFree.Get.step c.list s.skiplist a = some skiplist →
      Step c s (.skiplist a) { s with skiplist }
  | answer {t ret pc skiplist} : (s.skiplist.list.thread t).pc = .done ret → Answers s t ret pc →
      LockFree.Get.step c.list s.skiplist (.list (.ret t)) = some skiplist →
      Step c s (.next t) (s.put skiplist t pc)
  | look {a x t pc skiplist} : Looks c s t a x pc → LockFree.Get.step c.list s.skiplist x = some skiplist →
      Step c s a (s.put skiplist t pc)
  | countAdd {t} : s.pc t = .countAdd → Step c s (.next t)
      { s.put s.skiplist t .takeRoom with skiplist_success_adds := s.skiplist_success_adds + 1 }
  | takeRoom {t} : s.pc t = .takeRoom → Step c s (.next t)
      { s.put s.skiplist t (if s.skiplist_room_entries ≤ 0 then .choose none else .done (.added true)) with
        skiplist_room_entries := s.skiplist_room_entries - 1 }
  | giveBack {t evicts} : s.pc t = .giveBack evicts → Step c s (.next t)
      { s.put s.skiplist t (removed evicts true) with
        skiplist_room_entries := s.skiplist_room_entries + 1 }
  | ret {t r} : s.pc t = .done r → Step c s (.ret t) (s.put s.skiplist t .idle)

variable {c : Config A} {s s' : State A B T} {t : T}

lemma enter_cases {a : LockFree.Get.Act A (BNode B) T} {pc : Pc B} (h : enter c s a t pc = some s') :
    ∃ skiplist, LockFree.Get.step c.list s.skiplist a = some skiplist ∧ s' = s.put skiplist t pc := by
  rw [enter, Option.map_eq_some_iff] at h
  obtain ⟨skiplist, hstep, rfl⟩ := h
  exact ⟨skiplist, hstep, rfl⟩

lemma next_cases (h : next c s t = some s') : Step c s (.next t) s' := by
  cases hpc : s.pc t with
  | insert =>
    simp only [next, hpc] at h
    cases hl : (s.skiplist.list.thread t).pc with
    | done ret =>
      cases ret with
      | bool b =>
        simp only [hl] at h
        obtain ⟨skiplist, hstep, rfl⟩ := enter_cases h
        cases b with
        | true => exact .answer hl (.inserted hpc) hstep
        | false => exact .answer hl (.refused hpc) hstep
      | pointer value => simp [hl] at h
    | _ => simp [hl] at h
  | countAdd =>
    simp only [next, hpc, Option.some.injEq] at h
    subst h
    exact .countAdd hpc
  | takeRoom =>
    simp only [next, hpc, Option.some.injEq] at h
    subst h
    exact .takeRoom hpc
  | pick e1 =>
    simp only [next, hpc] at h
    cases hg : s.skiplist.get t with
    | done result accesses =>
      simp only [hg] at h
      obtain ⟨skiplist, hstep, rfl⟩ := enter_cases h
      exact .look (.picked hpc hg) hstep
    | _ => simp [hg] at h
  | evict victim =>
    simp only [next, hpc] at h
    obtain ⟨skiplist, hstep, rfl⟩ := enter_cases h
    exact .call (.evict hpc) hstep
  | remove evicts =>
    simp only [next, hpc] at h
    cases hl : (s.skiplist.list.thread t).pc with
    | done ret =>
      cases ret with
      | bool b => simp [hl] at h
      | pointer value =>
        cases value with
        | some page =>
          simp only [hl] at h
          obtain ⟨skiplist, hstep, rfl⟩ := enter_cases h
          exact .answer hl (.removed hpc) hstep
        | none =>
          simp only [hl] at h
          obtain ⟨skiplist, hstep, rfl⟩ := enter_cases h
          exact .answer hl (.missed hpc) hstep
    | _ => simp [hl] at h
  | giveBack evicts =>
    simp only [next, hpc, Option.some.injEq] at h
    subst h
    exact .giveBack hpc
  | search k =>
    simp only [next, hpc] at h
    cases hg : s.skiplist.get t with
    | done result accesses =>
      simp only [hg] at h
      obtain ⟨skiplist, hstep, rfl⟩ := enter_cases h
      exact .look (.searched hpc hg) hstep
    | _ => simp [hg] at h
  | idle | choose | done => simp [next, hpc] at h

lemma step_cases {a : Act A B T} (h : step c s a = some s') : Step c s a s' := by
  cases a with
  | next t => exact next_cases h
  | add t page =>
    cases hpc : s.pc t with
    | idle =>
      simp only [step, hpc] at h
      obtain ⟨skiplist, hstep, rfl⟩ := enter_cases h
      exact .call (.add hpc) hstep
    | _ => simp [step, hpc] at h
  | search t k =>
    cases hpc : s.pc t with
    | idle =>
      simp only [step, hpc] at h
      obtain ⟨skiplist, hstep, rfl⟩ := enter_cases h
      exact .look (.search hpc) hstep
    | _ => simp [step, hpc] at h
  | invalidate t key =>
    cases hpc : s.pc t with
    | idle =>
      simp only [step, hpc] at h
      obtain ⟨skiplist, hstep, rfl⟩ := enter_cases h
      exact .call (.invalidate hpc) hstep
    | _ => simp [step, hpc] at h
  | skiplist a =>
    simp only [step] at h
    split_ifs at h with hi
    rw [Option.map_eq_some_iff] at h
    obtain ⟨skiplist, hstep, rfl⟩ := h
    exact .inner hi hstep
  | choose t k =>
    cases hpc : s.pc t with
    | choose e1 =>
      simp only [step, hpc] at h
      split_ifs at h with hk
      obtain ⟨skiplist, hstep, rfl⟩ := enter_cases h
      exact .look (.choose hpc hk) hstep
    | _ => simp [step, hpc] at h
  | ret t =>
    cases hpc : s.pc t with
    | done r =>
      simp only [step, hpc, Option.some.injEq] at h
      subst h
      exact .ret hpc
    | _ => simp [step, hpc] at h

end IndexCache

end ObjectCache.Sherman
