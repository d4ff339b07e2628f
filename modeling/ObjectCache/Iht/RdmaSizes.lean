import ObjectCache.Iht.RdmaMap
import Mathlib.Tactic.NormNum
import Mathlib.Tactic.Positivity

/-! The `size` arguments of `RdmaIHT`: what every PList was allocated with, what every read of it asks
for, and the size that a cache line remembers of it. -/

set_option linter.unusedSectionVars false

namespace ObjectCache.Iht.Rdma.Sizes

open Lib Cache

/-- The node of a client, the line of an address and whether `PRIORITY` is defined. -/
structure Config (A K T N : Type) extends Rdma.Config A K where
  home : T → N
  line : A → ℕ
  prioritized : Bool

structure CacheLine (A : Type) where
  address : Option A
  masked : Bool
  priority : ℤ
  size : ℤ

/-- `1 << depth` on an `int`. -/
def oneShl (depth : ℕ) : ℤ := Int.bmod (2 ^ (depth % 32)) (2 ^ 32)

variable {A K V T N : Type}

/-- With the units that every PList was allocated with, and the `size` and `priority` with which each client
would read next. -/
structure State (A K V T N : Type) where
  table : Rdma.State A K V T
  units : A → ℤ
  size : T → ℤ
  priority : T → ℤ
  lines : N → ℕ → CacheLine A

namespace Config

variable (c : Config A K T N)

def sizeofPList : ℕ := c.plist_size * 16

/-- `size * sizeof(T)`. -/
def bytes (size : ℤ) : ℤ := size * c.sizeofPList % 2 ^ 64

/-- `plist_size_factor` of a rehash. -/
def plistSizeFactor (pcount : ℕ) : ℤ := Int.bmod ((pcount * 2 / c.plist_size : ℕ) : ℤ) (2 ^ 32)

end Config

namespace State

/-- Whether the `REMUS_ASSERT`s on a cache hit and on a coherence miss hold. -/
def passes [DecidableEq A] (c : Config A K T N) (s : State A K V T N) (t : T) (x : Cursor A K V) : Bool :=
  let l := s.lines (c.home t) (c.line x.parent_ptr)
  !(x.marked && l.address = some x.parent_ptr) || l.size % 2 ^ 64 = c.bytes (s.size t)

def units' [DecidableEq A] (c : Config A K T N) (s : State A K V T N) : Act A K V T → A → ℤ
  | .allocate t new_p =>
    match s.table.pc t with
    | .rehash x _ => Function.update s.units new_p (c.plistSizeFactor x.count)
    | _ => s.units
  | _ => s.units

variable [DecidableEq T]

def size' (s : State A K V T N) : Act A K V T → T → ℤ
  | .call t _ => Function.update s.size t 1
  | .read t _ =>
    match s.table.pc t with
    | .extendedRead x => Function.update s.size t (oneShl x.depth)
    | _ => s.size
  | .next t =>
    match s.table.pc t with
    | .acquire x _ | .invalidate x => Function.update s.size t (oneShl (x.depth - 1))
    | _ => s.size
  | _ => s.size

def priority' (s : State A K V T N) : Act A K V T → T → ℤ
  | .call t _ => Function.update s.priority t 0
  | .read t _ =>
    match s.table.pc t with
    | .extendedRead x => Function.update s.priority t x.depth
    | _ => s.priority
  | .next t =>
    match s.table.pc t with
    | .acquire x _ | .invalidate x => Function.update s.priority t (x.depth - 1)
    | _ => s.priority
  | _ => s.priority

variable [DecidableEq A] [DecidableEq N]

/-- The line after an `ExtendedRead` of a marked pointer. -/
def fetched (c : Config A K T N) (s : State A K V T N) (t : T) (p : A) (l : CacheLine A) : CacheLine A :=
  if l.address = some p then
    if l.masked then { l with masked := false, priority := s.priority t } else l
  else if c.prioritized && l.priority < s.priority t then l
  else ⟨some p, false, s.priority t, Int.bmod (c.bytes (s.size t)) (2 ^ 32)⟩

def lines' (c : Config A K T N) (s : State A K V T N) : Act A K V T → N → ℕ → CacheLine A
  | .read t _ =>
    match s.table.pc t with
    | .extendedRead x =>
      if x.marked then fun n j =>
        if n = c.home t ∧ j = c.line x.parent_ptr then s.fetched c t x.parent_ptr (s.lines n j) else s.lines n j
      else s.lines
    | _ => s.lines
  | .next t =>
    match s.table.pc t with
    | .invalidate x =>
      if x.marked then fun n j =>
        let l := s.lines n j
        if j = c.line x.parent_ptr ∧ l.address = some x.parent_ptr then { l with masked := true } else l
      else s.lines
    | _ => s.lines
  | _ => s.lines

/-- Whether no assertion stops the step. -/
def asserts (c : Config A K T N) (s : State A K V T N) : Act A K V T → Bool
  | .read t _ =>
    match s.table.pc t with
    | .extendedRead x => s.passes c t x
    | _ => true
  | _ => true

end State

variable [DecidableEq A] [DecidableEq K] [DecidableEq T] [DecidableEq N]

def step (c : Config A K T N) (s : State A K V T N) (a : Act A K V T) : Option (State A K V T N) :=
  if s.asserts c a then
    (Rdma.step c.toConfig s.table a).map fun table =>
      ⟨table, s.units' c a, s.size' a, s.priority' a, s.lines' c a⟩
  else none

def initial (c : Config A K T N) : State A K V T N where
  table := ⟨.initial c.toConfig, fun _ => .idle⟩
  units _ := 1
  size _ := 0
  priority _ := 0
  lines _ _ := ⟨none, false, 2147483647, 0⟩

def machine (c : Config A K T N) : Machine (State A K V T N) (Act A K V T) where
  init s := s = initial c
  step := step c

/-- The calls that `count` makes of `count_plist`. -/
inductive Counts (c : Config A K T N) (m : Memory A K V) : A → ℤ → Prop
  | root : Counts c m c.root 1
  | down {p : A} {size : ℤ} {i : ℕ} {q : A} {marked : Bool} : Counts c m p size →
      (i : ℤ) < Int.bmod (size * c.plist_size) (2 ^ 32) → (m.plists p i).lock = .p_unlocked → (m.plists p i).base = .plist q marked →
      Counts c m q (Int.bmod (size * 2) (2 ^ 32))

/-- The variables of the loop. -/
def cursor : Pc A K V → Option (Cursor A K V)
  | .idle | .done _ _ => none
  | .extendedRead x | .acquire x _ | .readElist x _ | .writeElist x _ _ _ | .rehash x _
  | .changePointer x _ | .permUnlock x | .invalidate x | .unlock x _ => some x

/-- The next read of every client asks for what the PList was allocated with and passes the assertions, and
no bucket is used that the PList does not have. -/
structure Right (c : Config A K T N) (s : State A K V T N) : Prop where
  reads : ∀ t x, s.table.pc t = .extendedRead x → s.size t = s.units x.parent_ptr
  asserts : ∀ t x, s.table.pc t = .extendedRead x → s.passes c t x = true
  buckets : ∀ t x, cursor (s.table.pc t) = some x → (c.bucket x : ℤ) < s.units x.parent_ptr * c.plist_size
  /-- The buckets that the pairs of a rehashed EList go to. -/
  rehashed : ∀ t x new_p k, s.table.pc t = .changePointer x new_p →
    (c.levelHash k (x.depth + 1) (x.count * 2) : ℤ) < s.units new_p * c.plist_size
  counts : ∀ p size, Counts c s.table.memory p size → size = s.units p ∧
    Int.bmod (size * c.plist_size) (2 ^ 32) = s.units p * c.plist_size

/-- The first PList has less than 2^31 buckets, and less than 2^31 bytes if it is cached. -/
def FitsRoot (c : Config A K T N) : Prop :=
  c.plist_size < 2 ^ 31 ∧ (1 ≤ c.cache_depth → c.plist_size * 16 < 2 ^ 31)

/-- The loop that makes a PList in a step. -/
def State.rehashes (s : State A K V T N) : Act A K V T → Option (Cursor A K V)
  | .allocate t _ =>
    match s.table.pc t with
    | .rehash x _ => some x
    | _ => none
  | _ => none

/-- A PList that a rehash makes has less than 2^31 buckets, and less than 2^31 bytes if it will be cached. -/
def Fits (c : Config A K T N) (s : State A K V T N) (a : Act A K V T) : Prop :=
  ∀ x ∈ s.rehashes a, x.count * 2 < 2 ^ 31 ∧ (x.depth < c.cache_depth → x.count * 2 * 16 < 2 ^ 31)

instance (c : Config A K T N) (s : State A K V T N) (a : Act A K V T) : Decidable (Fits c s a) :=
  inferInstanceAs (Decidable (∀ x ∈ s.rehashes a, _ ∧ _))

variable {c : Config A K T N} {s s' : State A K V T N} {a : Act A K V T} {t u : T} {x : Cursor A K V}
  {p q : A} {i depth count : ℕ} {k : K} {m : Memory A K V}

/-! ### One step -/

lemma step_cases (h : step c s a = some s') : s.asserts c a = true ∧ ∃ table, Rdma.Step c.toConfig s.table a table ∧
    s' = ⟨table, s.units' c a, s.size' a, s.priority' a, s.lines' c a⟩ := by
  rw [step] at h
  split_ifs at h with hasserts
  rw [Option.map_eq_some_iff] at h
  obtain ⟨table, htable, rfl⟩ := h
  exact ⟨hasserts, table, Rdma.step_cases htable, rfl⟩

section Table

variable {table table' : Rdma.State A K V T} (hs : Rdma.Step c.toConfig table a table')

include hs

/-- A link is made by the client that has made the PList. -/
lemma link_cases {marked : Bool} (hb : (table'.memory.plists p i).base = .plist q marked) :
    (table.memory.plists p i).base = .plist q marked ∨
      ∃ t x, a = .next t ∧ table.pc t = .changePointer x q ∧ p = x.parent_ptr ∧
        marked = decide (x.depth < c.cache_depth) := by
  cases hs with
  | acquire =>
    change ((Memory.setBucket _ _ _ _).plists p i).base = _ at hb
    rw [setBucket_plists] at hb
    split_ifs at hb with hp
    · exact .inl (by rw [hp.1, hp.2, hb])
    · exact .inl hb
  | land =>
    rw [setBucket_plists] at hb
    split_ifs at hb with hp
    · exact .inl (by rw [hp.1, hp.2, hb])
    · exact .inl hb
  | @changePointer t x new_p ht =>
    change ((Memory.setBucket _ _ _ _).plists p i).base = _ at hb
    rw [setBucket_plists] at hb
    split_ifs at hb with hp
    · cases hb
      exact .inr ⟨t, x, rfl, ht, hp.1, rfl⟩
    · exact .inl hb
  | @allocate t new_p x curr p' i' ht =>
    left
    change ((Function.update table.memory.plists new_p (initPList new_p)) p i).base = _ at hb
    by_cases hp : p = new_p
    · subst hp
      rw [Function.update_self] at hb
      cases hb
    · rwa [Function.update_of_ne hp] at hb
  | _ => exact .inl hb

lemma allocated_cases (hp : p ∈ table'.memory.allocated) : p ∈ table.memory.allocated ∨
    ∃ t x curr, a = .allocate t p ∧ table.pc t = .rehash x curr := by
  cases hs with
  | @allocate t new_p x curr p' i' ht =>
    rcases List.mem_cons.mp hp with rfl | hp
    · exact .inr ⟨t, x, curr, rfl, ht⟩
    · exact .inl hp
  | _ => exact .inl hp

lemma allocated_mono (hp : p ∈ table.memory.allocated) : p ∈ table'.memory.allocated := by
  cases hs with
  | allocate => exact List.mem_cons_of_mem _ hp
  | _ => exact hp

end Table

lemma pc_put {table : Rdma.State A K V T} {pc pc' : Pc A K V} (h : (table.put m u pc).pc t = pc') :
    t = u ∧ pc = pc' ∨ t ≠ u ∧ table.pc t = pc' := by
  by_cases ht : t = u
  · subst ht
    rw [put_pc_self] at h
    exact .inl ⟨rfl, h⟩
  · rw [put_pc_other ht] at h
    exact .inr ⟨ht, h⟩

lemma cursor_withElist {curr : PList A} {e : EList K V} :
    (∀ y, withElist c.toConfig x curr e ≠ .extendedRead y) ∧
      (∀ y new_p, withElist c.toConfig x curr e ≠ .changePointer y new_p) ∧
        (cursor (withElist c.toConfig x curr e) = some x ∨ cursor (withElist c.toConfig x curr e) = none) := by
  obtain ⟨op, parent_ptr, marked, depth, count⟩ := x
  rw [withElist]
  refine ⟨fun y => ?_, fun y new_p => ?_, ?_⟩
  · cases op <;> dsimp only <;> split_ifs <;> simp
  · cases op <;> dsimp only <;> split_ifs <;> simp
  · cases op <;> dsimp only <;> split_ifs <;> simp [cursor]

lemma made_cases {table : Rdma.State A K V T} (hs : Rdma.Step c.toConfig s.table a table) {new_p : A}
    (hpc : table.pc t = .changePointer x new_p) : s.table.pc t = .changePointer x new_p ∨
      ∃ curr, a = .allocate t new_p ∧ s.table.pc t = .rehash x curr := by
  have hput : ∀ {m : Memory A K V} {u : T} {pc : Pc A K V}, (∀ y q, pc ≠ .changePointer y q) →
      (s.table.put m u pc).pc t = .changePointer x new_p → s.table.pc t = .changePointer x new_p := by
    intro m u pc hne h
    rcases pc_put h with ⟨-, h⟩ | ⟨-, h⟩
    · exact absurd h (hne x new_p)
    · exact h
  cases hs with
  | spin | land => exact .inl hpc
  | readElist => exact .inl (hput cursor_withElist.2.1 hpc)
  | read _ _ hd => exact .inl (hput (by cases hd <;> simp) hpc)
  | @allocate u q y curr p i ht =>
    rcases pc_put hpc with ⟨rfl, h⟩ | ⟨-, h⟩
    · cases h
      exact .inr ⟨curr, rfl, ht⟩
    · exact .inl h
  | _ => exact .inl (hput (by simp) hpc)

/-- A client takes the pointer that it goes on with from the root or from its copy of a PList. -/
lemma cursor_cases {table : Rdma.State A K V T} (hs : Rdma.Step c.toConfig s.table a table)
    (hx : cursor (table.pc t) = some x) : cursor (s.table.pc t) = some x ∨ (∃ op, x = .start c.toConfig op) ∨
      ∃ y curr, s.table.pc t = .extendedRead y ∧ curr ∈ s.table.memory.history y.parent_ptr ∧
        (curr (c.bucket y)).lock = .p_unlocked ∧ (curr (c.bucket y)).base = .plist x.parent_ptr x.marked := by
  have hput : ∀ {m : Memory A K V} {u : T} {pc : Pc A K V},
      cursor pc = cursor (s.table.pc u) ∨ cursor pc = none →
      cursor ((s.table.put m u pc).pc t) = some x → cursor (s.table.pc t) = some x := by
    intro m u pc hsame h
    rcases pc_put (rfl : (s.table.put m u pc).pc t = _) with ⟨rfl, hpc⟩ | ⟨-, hpc⟩
    · rw [← hpc] at h
      rcases hsame with hsame | hsame
      · rwa [← hsame]
      · rw [hsame] at h
        cases h
    · rwa [hpc]
  cases hs with
  | spin | land => exact .inl hx
  | @readElist u y curr p i ht =>
    refine .inl (hput ?_ hx)
    rw [ht]
    exact cursor_withElist.2.2
  | @call u op ht =>
    rcases pc_put (rfl : (s.table.put s.table.memory u (.extendedRead (.start c.toConfig op))).pc t = _)
      with ⟨rfl, hpc⟩ | ⟨-, hpc⟩
    · rw [← hpc] at hx
      cases hx
      exact .inr (.inl ⟨op, rfl⟩)
    · rw [← hpc] at hx
      exact .inl hx
  | @read u age y curr pc ht hc hd =>
    rcases pc_put (rfl : (s.table.put s.table.memory u pc).pc t = _) with ⟨rfl, hpc⟩ | ⟨-, hpc⟩
    · rw [← hpc] at hx
      cases hd with
      | down hl hb =>
        cases hx
        exact .inr (.inr ⟨y, curr, ht, List.mem_of_getElem? hc, hl, hb⟩)
      | lookup | lock =>
        rw [ht]
        exact .inl hx
    · rw [← hpc] at hx
      exact .inl hx
  | unlock | misread | finish => exact .inl (hput (.inr rfl) hx)
  | @acquire u y curr ht | @calcified u y curr ht | @writeElist u y curr e ret p i ht
  | @changePointer u y new_p ht | @permUnlock u y ht | @invalidate u y ht | @allocate u new_p y curr p i ht =>
    refine .inl (hput (.inl ?_) hx)
    rw [ht]
    rfl

lemma size_other (ht : t ≠ u) : s.size' (.next u) t = s.size t ∧ ∀ age, s.size' (.read u age) t = s.size t := by
  refine ⟨?_, fun age => ?_⟩
  · cases hpc : s.table.pc u <;> simp [State.size', hpc, Function.update_of_ne ht]
  · cases hpc : s.table.pc u <;> simp [State.size', hpc, Function.update_of_ne ht]

/-- No wrap of an `int`. -/
lemma bmod_eq {z : ℤ} (h : 0 ≤ z) (hz : z < 2 ^ 31) : Int.bmod z (2 ^ 32) = z := by
  refine Int.bmod_eq_of_le ?_ ?_
  · norm_num
    omega
  · norm_num at hz ⊢
    omega

lemma oneShl_eq (h : depth < 31) : oneShl depth = 2 ^ depth := by
  have hmod : depth % 32 = depth := Nat.mod_eq_of_lt (by omega)
  have hpow : (2 : ℤ) ^ depth < 2 ^ 31 := pow_lt_pow_right₀ (by norm_num) h
  have hpos : (0 : ℤ) ≤ 2 ^ depth := by positivity
  exact (congrArg (fun d : ℕ => Int.bmod (2 ^ d) (2 ^ 32)) hmod).trans (bmod_eq hpos hpow)

/-- The size of the next read follows the depth. -/
lemma size_step {table : Rdma.State A K V T} (hs : Rdma.Step c.toConfig s.table a table)
    (h : ∀ t x, s.table.pc t = .extendedRead x → s.size t = oneShl (x.depth - 1))
    (hpc : table.pc t = .extendedRead x) : s.size' a t = oneShl (x.depth - 1) := by
  have hnext : ∀ {m : Memory A K V} {u : T} {pc : Pc A K V}, (∀ y, pc ≠ .extendedRead y) →
      (s.table.put m u pc).pc t = .extendedRead x → s.size' (.next u) t = oneShl (x.depth - 1) := by
    intro m u pc hne hpc
    rcases pc_put hpc with ⟨-, hx⟩ | ⟨ht, hx⟩
    · exact absurd hx (hne x)
    · rw [(size_other ht).1]
      exact h t x hx
  have hsame : ∀ {m : Memory A K V} {u : T} {pc : Pc A K V}, (∀ y, pc ≠ .extendedRead y) →
      (s.table.put m u pc).pc t = .extendedRead x → s.size t = oneShl (x.depth - 1) := by
    intro m u pc hne hpc
    rcases pc_put hpc with ⟨-, hx⟩ | ⟨-, hx⟩
    · exact absurd hx (hne x)
    · exact h t x hx
  cases hs with
  | @call u op ht =>
    rcases pc_put hpc with ⟨rfl, hx⟩ | ⟨htu, hx⟩
    · cases hx
      simp only [State.size', Function.update_self]
      exact (oneShl_eq (Nat.zero_lt_succ 30)).symm
    · simp only [State.size', Function.update_of_ne htu]
      exact h t x hx
  | @read u age y curr pc ht _ hd =>
    rcases pc_put hpc with ⟨rfl, hx⟩ | ⟨htu, hx⟩
    · cases hd with
      | down =>
        cases hx
        simp only [State.size', ht, Function.update_self, Nat.add_sub_cancel]
      | lookup | lock => cases hx
    · rw [(size_other htu).2]
      exact h t x hx
  | @calcified u y curr ht | @invalidate u y ht =>
    rcases pc_put hpc with ⟨rfl, hx⟩ | ⟨htu, hx⟩
    · cases hx
      simp only [State.size', ht, Function.update_self]
    · rw [(size_other htu).1]
      exact h t x hx
  | @spin u y curr ht =>
    have htu : t ≠ u := by
      rintro rfl
      rw [ht] at hpc
      cases hpc
    rw [(size_other htu).1]
    exact h t x hpc
  | readElist => exact hnext cursor_withElist.1 hpc
  | acquire | writeElist | changePointer | permUnlock | unlock => exact hnext (by simp) hpc
  | allocate | misread | finish => exact hsame (by simp) hpc
  | land => exact h t x hpc

/-- An allocation changes the units of no PList that there is. -/
lemma units_step {table : Rdma.State A K V T} (hs : Rdma.Step c.toConfig s.table a table)
    (hp : p ∈ s.table.memory.allocated) : s.units' c a p = s.units p := by
  cases hs with
  | @allocate t new_p x curr p' i' ht hb hn =>
    simp only [State.units', ht]
    apply Function.update_of_ne
    rintro rfl
    exact hn hp
  | _ => rfl

/-! ### Sizes -/

/-- The size of a PList of so many units fits an `int`, if it is `marked`. -/
def Caches (c : Config A K T N) (units : ℤ) (marked : Bool) : Prop :=
  marked = true → units * c.sizeofPList < 2 ^ 31

/-- Every PList has twice the units of the one that leads to it, a marked pointer leads to one that fits a
line, and every line remembers the size of its PList. -/
structure Agree (c : Config A K T N) (s : State A K V T N) : Prop where
  inv : s.table.Inv c.toConfig
  root : s.units c.root = 1
  start : Caches c 1 (decide (1 ≤ c.cache_depth))
  link : ∀ {p i q marked}, (s.table.memory.plists p i).base = .plist q marked →
    s.units q = s.units p * 2 ∧ Caches c (s.units q) marked
  fits : ∀ p ∈ s.table.memory.allocated, s.units p * c.plist_size < 2 ^ 31
  made : ∀ t x new_p, s.table.pc t = .changePointer x new_p →
    s.units new_p = s.units x.parent_ptr * 2 ∧ Caches c (s.units new_p) (decide (x.depth < c.cache_depth))
  cached : ∀ t x, cursor (s.table.pc t) = some x → Caches c (s.units x.parent_ptr) x.marked
  size : ∀ t x, s.table.pc t = .extendedRead x → s.size t = oneShl (x.depth - 1)
  lines : ∀ n j p, (s.lines n j).address = some p → p ∈ s.table.memory.allocated ∧
    (s.lines n j).size = s.units p * c.sizeofPList

lemma stands_of_cursor {table : Rdma.State A K V T} (h : table.Inv c.toConfig)
    (hx : cursor (table.pc t) = some x) : x.Stands c.toConfig table.memory := by
  have hok := h.ok t
  cases hpc : table.pc t with
  | idle | done =>
    rw [hpc] at hx
    cases hx
  | extendedRead y | invalidate y =>
    rw [hpc] at hx hok
    cases hx
    exact hok
  | acquire y curr | rehash y curr | writeElist y curr e ret =>
    rw [hpc] at hx hok
    cases hx
    exact hok.1.stands
  | changePointer y new_p | permUnlock y | unlock y ret =>
    rw [hpc] at hx hok
    cases hx
    exact Cursor.Holds.stands hok
  | readElist y curr =>
    rw [hpc] at hx hok
    cases hx
    simp only [Pc.Ok] at hok
    split_ifs at hok
    · exact hok.1
    · exact hok.1.stands

/-- `2 ^ depth` units of a PList that fits. -/
lemma lt_of_fits (h : (2 : ℤ) ^ depth * c.plist_size < 2 ^ 31) : depth < 29 := by
  by_contra hge
  have hsize : (4 : ℤ) ≤ c.plist_size := by exact_mod_cast c.plist_min
  have hpow : (2 : ℤ) ^ 29 ≤ 2 ^ depth := pow_le_pow_right₀ (by norm_num) (by omega)
  have hmul : (2 : ℤ) ^ 29 * 4 ≤ 2 ^ depth * c.plist_size := mul_le_mul hpow hsize (by norm_num) (by positivity)
  norm_num at hmul h
  omega

namespace Agree

variable (h : Agree c s)

include h

/-- The units of a PList are a power of two, by its depth. -/
lemma units_path (hp : (s.table.memory.trie c.toConfig).path c.slot k depth = some p) : s.units p = 2 ^ depth := by
  induction depth generalizing p with
  | zero =>
    cases hp
    exact h.root.trans (pow_zero 2).symm
  | succ d ih =>
    obtain ⟨q, hq, hl⟩ := Trie.path_succ.mp hp
    obtain ⟨marked, hb⟩ := base_of_child hl
    rw [(h.link hb).1, ih hq, pow_succ]

variable (hx : x.Stands c.toConfig s.table.memory)

include hx

lemma parent_mem : x.parent_ptr ∈ s.table.memory.allocated := h.inv.locks.memory.path_mem hx.path

lemma depth_lt : x.depth - 1 < 29 := by
  have hfits := h.fits x.parent_ptr (h.parent_mem hx)
  rw [h.units_path hx.path] at hfits
  exact lt_of_fits hfits

lemma oneShl_units : oneShl (x.depth - 1) = s.units x.parent_ptr := by
  have hdepth := h.depth_lt hx
  rw [h.units_path hx.path]
  exact oneShl_eq (by omega)

lemma count_units : (x.count : ℤ) = s.units x.parent_ptr * c.plist_size := by
  rw [h.units_path hx.path, hx.size]
  push_cast
  exact mul_comm _ _

end Agree

/-- The factor that a rehash computes from the count is a power of two, by the depth. -/
lemma plistSizeFactor_eq (hsize : count = c.plist_size * 2 ^ depth) (h : count * 2 < 2 ^ 31) :
    c.plistSizeFactor count = 2 ^ (depth + 1) := by
  have hmin := c.plist_min
  have hdiv : count * 2 / c.plist_size = 2 ^ (depth + 1) := by
    rw [hsize, mul_assoc, ← pow_succ]
    exact Nat.mul_div_cancel_left _ (by omega)
  have hlt : 2 ^ (depth + 1) < 2 ^ 31 := by
    rw [← hdiv]
    exact lt_of_le_of_lt (Nat.div_le_self _ _) h
  have hcast : ((2 ^ (depth + 1) : ℕ) : ℤ) < 2 ^ 31 := by exact_mod_cast hlt
  have hfactor := congrArg (fun n : ℕ => Int.bmod (n : ℤ) (2 ^ 32)) hdiv
  exact (hfactor.trans (bmod_eq (Int.natCast_nonneg _) hcast)).trans (by push_cast; rfl)

/-- The product of a size and `sizeof(PList)` is exact where it fits an `int`. -/
lemma bytes_eq {size : ℤ} (h0 : 0 ≤ size) (h : size * c.sizeofPList < 2 ^ 31) :
    c.bytes size = size * c.sizeofPList := by
  have hnonneg : 0 ≤ size * (c.sizeofPList : ℤ) := mul_nonneg h0 (Int.natCast_nonneg _)
  refine Int.emod_eq_of_lt hnonneg (h.trans ?_)
  norm_num

lemma Agree.initial (hroot : FitsRoot c) : Agree c (initial c : State A K V T N) where
  inv := ⟨.initial, fun t => trivial⟩
  root := rfl
  start hd := by
    rw [one_mul]
    exact_mod_cast hroot.2 (of_decide_eq_true hd)
  link hb := by cases hb
  fits p hp := by
    change (1 : ℤ) * c.plist_size < 2 ^ 31
    rw [one_mul]
    exact_mod_cast hroot.1
  made t x new_p hpc := by cases hpc
  cached t x hx := by cases hx
  size t x hpc := by cases hpc
  lines n j p hp := by cases hp


namespace Agree

variable (h : Agree c s) {table : Rdma.State A K V T} (hs : Rdma.Step c.toConfig s.table a table)

include h hs

lemma step_made (hf : Fits c s a) {new_p : A} (hpc : table.pc t = .changePointer x new_p) :
    s.units' c a new_p = s.units' c a x.parent_ptr * 2 ∧
      Caches c (s.units' c a new_p) (decide (x.depth < c.cache_depth)) := by
  have hstands := stands_of_cursor h.inv (t := t) (x := x)
  rcases made_cases hs hpc with hold | ⟨curr, rfl, hrehash⟩
  · obtain ⟨-, hprivate, -⟩ : (Role.made x.parent_ptr (c.bucket x) new_p).Ok c.toConfig s.table.memory := by
      have hok := h.inv.locks.ok t
      rwa [hold] at hok
    rw [units_step hs hprivate.younger.new, units_step hs hprivate.younger.old]
    exact h.made t x new_p hold
  · have hx := hstands (by rw [hrehash]; rfl)
    obtain ⟨hlt, hcached⟩ := hf x (by simp [State.rehashes, hrehash])
    have hfactor := plistSizeFactor_eq hx.size hlt
    have hunits : s.units' c (.allocate t new_p) new_p = 2 ^ (x.depth - 1 + 1) := by
      simp only [State.units', hrehash, Function.update_self]
      exact hfactor
    have hbytes : (2 : ℤ) ^ (x.depth - 1 + 1) * c.sizeofPList = ((x.count * 2 * 16 : ℕ) : ℤ) := by
      rw [hx.size, Config.sizeofPList, pow_succ]
      push_cast
      ring
    rw [units_step hs (h.parent_mem hx), h.units_path hx.path, ← pow_succ, hunits]
    refine ⟨rfl, fun hd => ?_⟩
    rw [hbytes]
    exact_mod_cast hcached (of_decide_eq_true hd)

lemma step_fits (hf : Fits c s a) (hp : p ∈ table.memory.allocated) :
    s.units' c a p * c.plist_size < 2 ^ 31 := by
  rcases allocated_cases hs hp with hold | ⟨t, x, curr, rfl, hrehash⟩
  · rw [units_step hs hold]
    exact h.fits p hold
  · have hx := stands_of_cursor h.inv (t := t) (x := x) (by rw [hrehash]; rfl)
    have hlt := (hf x (by simp [State.rehashes, hrehash])).1
    have hfactor := plistSizeFactor_eq hx.size hlt
    have hbuckets : (2 : ℤ) ^ (x.depth - 1 + 1) * c.plist_size = ((x.count * 2 : ℕ) : ℤ) := by
      rw [hx.size, pow_succ]
      push_cast
      ring
    simp only [State.units', hrehash, Function.update_self]
    rw [hfactor, hbuckets]
    exact_mod_cast hlt

omit hs in
lemma younger {marked : Bool} (hb : (s.table.memory.plists p i).base = .plist q marked) :
    Younger s.table.memory.allocated q p := by
  have hlink : (s.table.memory.trie c.toConfig).link p i = some q := by
    simp only [Memory.trie, hb, child_plist]
  exact h.inv.locks.memory.tree.younger hlink

lemma step_link {marked : Bool} (hb : (table.memory.plists p i).base = .plist q marked) :
    s.units' c a q = s.units' c a p * 2 ∧ Caches c (s.units' c a q) marked := by
  rcases link_cases hs hb with hold | ⟨t, x, rfl, hpc, rfl, rfl⟩
  · have hyounger := h.younger hold
    rw [units_step hs hyounger.new, units_step hs hyounger.old]
    exact h.link hold
  · exact h.made t x q hpc

lemma step_cached (hx : cursor (table.pc t) = some x) : Caches c (s.units' c a x.parent_ptr) x.marked := by
  rcases cursor_cases hs hx with hold | ⟨op, rfl⟩ | ⟨y, curr, hy, hc, hl, hb⟩
  · rw [units_step hs (h.parent_mem (stands_of_cursor h.inv hold))]
    exact h.cached t x hold
  · have hroot : s.units' c a c.root = 1 := (units_step hs h.inv.locks.memory.root).trans h.root
    intro hmarked
    exact (congrArg (· * (c.sizeofPList : ℤ)) hroot).trans_lt (h.start hmarked)
  · obtain ⟨q, marked, hq, hm⟩ := (h.inv.locks.memory.copy hc (c.bucket y)).plist hl
    rw [hb] at hq
    cases hq
    rw [units_step hs (h.younger hm).new]
    exact (h.link hm).2

omit hs in
/-- What the line remembers of a PList that it has fetched. -/
lemma fetched_size (hpc : s.table.pc t = .extendedRead x) (hmarked : x.marked = true) {l : CacheLine A}
    (hl : ∀ q, l.address = some q → q ∈ s.table.memory.allocated ∧ l.size = s.units q * c.sizeofPList)
    (hp : (s.fetched c t x.parent_ptr l).address = some p) :
    p ∈ s.table.memory.allocated ∧ (s.fetched c t x.parent_ptr l).size = s.units p * c.sizeofPList := by
  have hx := stands_of_cursor h.inv (t := t) (x := x) (by rw [hpc]; rfl)
  have hmem := h.parent_mem hx
  have hunits : s.size t = s.units x.parent_ptr := (h.size t x hpc).trans (h.oneShl_units hx)
  have hnonneg : 0 ≤ s.units x.parent_ptr := by
    rw [h.units_path hx.path]
    positivity
  rw [State.fetched] at hp ⊢
  split_ifs at hp ⊢ with haddr hmasked hprio
  · exact hl p hp
  · exact hl p hp
  · exact hl p hp
  · cases hp
    refine ⟨hmem, ?_⟩
    have hfits := h.cached t x (by rw [hpc]; rfl) hmarked
    have hbytes : c.bytes (s.size t) = s.units x.parent_ptr * c.sizeofPList := by
      rw [hunits]
      exact bytes_eq hnonneg hfits
    exact (congrArg (fun z : ℤ => Int.bmod z (2 ^ 32)) hbytes).trans
      (bmod_eq (mul_nonneg hnonneg (Int.natCast_nonneg _)) hfits)

lemma step_lines {n : N} {j : ℕ} (hp : (s.lines' c a n j).address = some p) :
    p ∈ table.memory.allocated ∧ (s.lines' c a n j).size = s.units' c a p * c.sizeofPList := by
  suffices hold : p ∈ s.table.memory.allocated ∧ (s.lines' c a n j).size = s.units p * c.sizeofPList by
    rw [units_step hs hold.1]
    exact ⟨allocated_mono hs hold.1, hold.2⟩
  have hkeep := h.lines n j
  cases hs with
  | @read t age x curr pc ht hc hd =>
    simp only [State.lines', ht] at hp ⊢
    split_ifs at hp ⊢ with hm
    · by_cases hat : n = c.home t ∧ j = c.line x.parent_ptr
      · simp only [if_pos hat] at hp ⊢
        exact h.fetched_size ht hm hkeep hp
      · simp only [if_neg hat] at hp ⊢
        exact hkeep p hp
    · exact hkeep p hp
  | @invalidate t x ht =>
    simp only [State.lines', ht] at hp ⊢
    split_ifs at hp ⊢ with hm
    · dsimp only at hp ⊢
      split_ifs at hp ⊢ with hat
      · exact hkeep p hp
      · exact hkeep p hp
    · exact hkeep p hp
  | @acquire t x curr ht | @calcified t x curr ht | @spin t x curr ht | @readElist t x curr q i ht
  | @writeElist t x curr e ret q i ht | @changePointer t x new_p ht | @permUnlock t x ht | @unlock t x ret ht =>
    simp only [State.lines', ht] at hp ⊢
    exact hkeep p hp
  | _ => exact hkeep p hp

end Agree

lemma Agree.step (h : Agree c s) (hf : Fits c s a) (hstep : step c s a = some s') : Agree c s' := by
  obtain ⟨-, table, hs, rfl⟩ := step_cases hstep
  constructor
  · exact h.inv.step hs
  · exact (units_step hs h.inv.locks.memory.root).trans h.root
  · exact h.start
  · exact h.step_link hs
  · exact fun p hp => h.step_fits hs hf hp
  · exact fun t x new_p hpc => h.step_made hs hf hpc
  · exact fun t x hx => h.step_cached hs hx
  · exact fun t x hpc => size_step hs h.size hpc
  · exact fun n j p hp => h.step_lines hs hp

/-! ### What is read -/

/-- A hash is below the number of buckets. -/
lemma levelHash_lt {level n : ℕ} (hn : 1 < n) : c.levelHash k level n < n := by
  have hlt := Nat.mod_lt (mix13 (c.hash k ^^^ BitVec.ofNat 64 level)).toNat (show 0 < n - 1 by omega)
  simp only [Config.levelHash]
  omega

namespace Agree

variable (h : Agree c s)

include h

lemma one_lt_count (hx : x.Stands c.toConfig s.table.memory) : 1 < x.count := by
  have hmin := c.plist_min
  have hpow : 0 < 2 ^ (x.depth - 1) := Nat.two_pow_pos _
  have hle := Nat.le_mul_of_pos_right c.plist_size hpow
  rw [hx.size]
  omega

lemma reads (hpc : s.table.pc t = .extendedRead x) : s.size t = s.units x.parent_ptr := by
  have hx := stands_of_cursor h.inv (t := t) (x := x) (by rw [hpc]; rfl)
  exact (h.size t x hpc).trans (h.oneShl_units hx)

lemma passes (hpc : s.table.pc t = .extendedRead x) : s.passes c t x = true := by
  have hx := stands_of_cursor h.inv (t := t) (x := x) (by rw [hpc]; rfl)
  simp only [State.passes, Bool.or_eq_true, Bool.not_eq_true', decide_eq_true_eq]
  by_cases haddr : (s.lines (c.home t) (c.line x.parent_ptr)).address = some x.parent_ptr
  · right
    rw [(h.lines _ _ _ haddr).2, Config.bytes, h.reads hpc]
  · left
    simp [haddr]

lemma bucket_lt (hx : x.Stands c.toConfig s.table.memory) :
    (c.bucket x : ℤ) < s.units x.parent_ptr * c.plist_size := by
  rw [← h.count_units hx]
  exact_mod_cast levelHash_lt (h.one_lt_count hx)

lemma spread_lt {new_p : A} (hpc : s.table.pc t = .changePointer x new_p) (k : K) :
    (c.levelHash k (x.depth + 1) (x.count * 2) : ℤ) < s.units new_p * c.plist_size := by
  have hx := stands_of_cursor h.inv (t := t) (x := x) (by rw [hpc]; rfl)
  have hone := h.one_lt_count hx
  have hlt : c.levelHash k (x.depth + 1) (x.count * 2) < x.count * 2 := levelHash_lt (by omega)
  have hcount := h.count_units hx
  calc (c.levelHash k (x.depth + 1) (x.count * 2) : ℤ)
    _ < x.count * 2 := by exact_mod_cast hlt
    _ = s.units new_p * c.plist_size := by
      rw [(h.made t x new_p hpc).1, hcount]
      ring

/-- Every PList that `count` reaches is on a path, and is read with its size. -/
lemma counts {size : ℤ} (hc : Counts c s.table.memory p size) : size = s.units p ∧
    Int.bmod (size * c.plist_size) (2 ^ 32) = s.units p * c.plist_size ∧
      p ∈ s.table.memory.allocated ∧ 0 ≤ s.units p := by
  have hbound : ∀ q, q ∈ s.table.memory.allocated → 0 ≤ s.units q → s.units q * 2 < 2 ^ 31 ∧
      Int.bmod (s.units q * c.plist_size) (2 ^ 32) = s.units q * c.plist_size := by
    intro q hq hnonneg
    have hbuckets := h.fits q hq
    have hmin : (4 : ℤ) ≤ c.plist_size := by exact_mod_cast c.plist_min
    have hmul : s.units q * 4 ≤ s.units q * c.plist_size := mul_le_mul_of_nonneg_left hmin hnonneg
    generalize s.units q * (c.plist_size : ℤ) = buckets at hbuckets hmul ⊢
    norm_num at hbuckets
    exact ⟨by norm_num; omega, bmod_eq (by omega) (by norm_num; omega)⟩
  induction hc with
  | root =>
    have hmem := h.inv.locks.memory.root
    rw [h.root]
    refine ⟨rfl, ?_, hmem, by norm_num⟩
    have hroot := (hbound c.root hmem (by rw [h.root]; norm_num)).2
    rwa [h.root] at hroot
  | @down p size i q marked hc hi hl hb ih =>
    obtain ⟨rfl, -, hmem, hnonneg⟩ := ih
    have hmem' := (h.younger hb).new
    have hunits := (h.link hb).1
    have hnonneg' : 0 ≤ s.units q := by omega
    have hsize : Int.bmod (s.units p * 2) (2 ^ 32) = s.units q :=
      (bmod_eq (by omega) (hbound p hmem hnonneg).1).trans hunits.symm
    rw [hsize]
    exact ⟨rfl, (hbound q hmem' hnonneg').2, hmem', hnonneg'⟩

lemma right : Right c s where
  reads t x hpc := h.reads hpc
  asserts t x hpc := h.passes hpc
  buckets t x hx := h.bucket_lt (stands_of_cursor h.inv hx)
  rehashed t x new_p k hpc := h.spread_lt hpc k
  counts p size hc := ⟨(h.counts hc).1, (h.counts hc).2.1⟩

end Agree

/-- As long as the PLists fit, every read asks for what the PList was allocated with, and no assertion
fires. -/
theorem right_of_fits (R : (machine c : Machine (State A K V T N) (Act A K V T)).Run)
    (hroot : FitsRoot c) (hfits : ∀ i < R.len, Fits c (R.state i) (R.act i)) :
    ∀ i ≤ R.len, Right c (R.state i) := by
  have hagree : ∀ i ≤ R.len, Agree c (R.state i) := by
    intro i
    induction i with
    | zero =>
      intro _
      rw [show R.state 0 = initial c from R.start]
      exact .initial hroot
    | succ i ih =>
      intro hi
      exact (ih (by omega)).step (hfits i (by omega)) (R.next i (by omega))
  exact fun i hi => (hagree i hi).right

/-! ### Runs of two clients -/

lemma pair_elist_pos : 1 ≤ (pair false).elist_size := (pair false).elist_pos

/-- A line for every PList on every client's node, and `4 * (n + 1)` buckets at the root. -/
def cachedPair (n : ℕ) : Config ℕ (BitVec 64) Bool Bool where
  toConfig :=
    { pair false with
      elist_pos := pair_elist_pos
      plist_size := 4 * (n + 1)
      plist_min := Nat.le_mul_of_pos_right 4 (Nat.succ_pos n)
      plist_dvd := Nat.dvd_mul_right 4 (n + 1)
      cache_depth := 2 }
  home := id
  line := id
  prioritized := false

abbrev CachedState := State ℕ (BitVec 64) ℕ Bool Bool

def fitting : Config ℕ (BitVec 64) Bool Bool := cachedPair 0

def fittingRun : (machine fitting : Machine CachedState PairAct).Run :=
  .ofActs _ (initial fitting) pairActs rfl (by decide +kernel)

theorem right_fitting : (∀ i ≤ fittingRun.len, Right fitting (fittingRun.state i)) ∧
    (fittingRun.state fittingRun.len).units 1 = 2 ∧
      ((fittingRun.state fittingRun.len).lines true 1).size = 128 :=
  ⟨right_of_fits fittingRun ⟨by decide, by decide⟩ (by decide +kernel), by decide +kernel, by decide +kernel⟩

/-- A root of 2^31 bytes. -/
def wide : Config ℕ (BitVec 64) Bool Bool := cachedPair 33554431

/-- The first client reads the root twice. -/
def wideRun : (machine wide : Machine CachedState PairAct).Run :=
  .ofActs _ (initial wide) [.call false (.contains 1), .read false 0, .next false, .next false, .next false,
    .deliver 0, .finish false, .call false (.contains 1)] rfl (by decide +kernel)

theorem not_right_wide : ¬ ∀ (R : (machine wide : Machine CachedState PairAct).Run), ∀ i ≤ R.len,
    Right wide (R.state i) := by
  intro h
  have hpc : (wideRun.state wideRun.len).table.pc false = .extendedRead (.start wide.toConfig (.contains 1)) :=
    rfl
  have hpasses := (h wideRun wideRun.len le_rfl).asserts false _ hpc
  revert hpasses
  decide +kernel

end ObjectCache.Iht.Rdma.Sizes
