import ObjectCache.Iht.TunedInv
import ObjectCache.Iht.RdmaMap

/-! What `fetch_cache` returns is the PList at its path exactly as long as no slot is fetched for
another path than it was filled for. -/

set_option linter.unusedSectionVars false

namespace ObjectCache.Iht.Tuned

open Lib Cache Rdma

variable {A K V N T : Type} [DecidableEq A] [DecidableEq K] [DecidableEq N] [DecidableEq T]
  {c : Config A K} {n : Nodes N T} {m : Memory A K V} {s : State A K V N T} {p : A} {k k' : K}
  {l l' : ℕ}

/-- Every fetch is within its layer, and returns a copy of the PList that its path leads to. -/
def FetchesRight (c : Config A K) (s : State A K V N T) : Prop :=
  ∀ t x, s.pc t = .fetch x →
    (∀ i j, place c x.path 0 0 = some (i, j) → j < layerSize c i) ∧
    ∀ cache, fetch_cache c (s.layers t) x.path = some cache →
      ∃ p, follow s.memory c.root x.path = some p ∧
        cache.length = c.plist_size * 2 ^ x.path.length ∧
        ∀ b < cache.length, (cache.buckets b).base = (s.memory.plists p b).base

lemma State.Inv.fetchesRight (h : s.Inv c) (hc : c.cache_depth ≤ 3) (hu : Unmixed c s) :
    FetchesRight c s := by
  intro t x ht
  have hok := h.ok t
  rw [ht] at hok
  have hpath := Context.At.path hok
  refine ⟨fun i j hp => ?_, fun cache hf => ?_⟩
  · rw [hpath] at hp
    exact place_lt hc hp
  · obtain ⟨y, hs⟩ := mem_of_fetch_cache hf
    have hsaved : cache.Ok c s.memory := h.saved hs
    have hsame := hu t x cache ht hf
    obtain ⟨p, hp, hlen, -⟩ := hsaved.follow_eq
    refine ⟨p, by rw [← hsame, hp], by rw [← hsame, hlen], fun b _ => ?_⟩
    exact hsaved.base_eq h.locks.memory hp b

/-- Two keys that lead to one PList have the same path. -/
lemma bucketPath_of_path (h : m.Inv c) (hp : (m.trie c).path c.slot k l = some p)
    (hp' : (m.trie c).path c.slot k' l' = some p) : bucketPath c k l = bucketPath c k' l' := by
  obtain rfl := h.tree.placed.level hp hp'
  induction l generalizing p with
  | zero => simp [bucketPath]
  | succ l ih =>
    obtain ⟨q, hq, hl⟩ := Trie.path_succ.mp hp
    obtain ⟨q', hq', hl'⟩ := Trie.path_succ.mp hp'
    obtain ⟨rfl, hs⟩ := h.tree.source hl hl'
    rw [bucketPath_succ, bucketPath_succ, ih hq hq', hs]

lemma State.Inv.unmixed (h : s.Inv c) (hf : FetchesRight c s) : Unmixed c s := by
  intro t x cache ht hcache
  have hok := h.ok t
  rw [ht] at hok
  obtain ⟨p, hp, hlen, hbase⟩ := (hf t x ht).2 cache hcache
  obtain ⟨y, hs⟩ := mem_of_fetch_cache hcache
  have hsaved : cache.Ok c s.memory := h.saved hs
  obtain ⟨k, l, q, hpath, hq, hlen', htells, hlock⟩ := hsaved
  have hpos : 4 ≤ cache.length := by
    rw [hlen']
    exact le_trans c.plist_min (Nat.le_mul_of_pos_right _ Nat.one_le_two_pow)
  obtain ⟨r, marked, hb, hb'⟩ := (htells 0).plist (hlock 0 (by omega))
  have hpr := hbase 0 (by omega)
  rw [hb] at hpr
  have hlink : (s.memory.trie c).link p 0 = some r := congrArg Base.child hpr.symm
  have hlink' : (s.memory.trie c).link q 0 = some r := congrArg Base.child hb'
  obtain ⟨rfl, -⟩ := h.locks.memory.tree.source hlink hlink'
  have hx := Context.At.path hok
  rw [hx, follow_bucketPath] at hp
  rw [hpath, hx]
  exact bucketPath_of_path h.locks.memory hq hp

lemma unmixed_of_fetchesRight (r : (machine c n : Machine (State A K V N T) (Act A K V T)).Run)
    (h : ∀ i ≤ r.len, FetchesRight c (r.state i)) : ∀ i ≤ r.len, Unmixed c (r.state i) := by
  intro i
  induction i using Nat.strong_induction_on with
  | _ i ih =>
    intro hi
    have hinv := inv_of_unmixed r hi fun j hj => ih j hj (by omega)
    exact hinv.unmixed (h i hi)

theorem fetchesRight_iff (hc : c.cache_depth ≤ 3)
    (r : (machine c n : Machine (State A K V N T) (Act A K V T)).Run) :
    (∀ i ≤ r.len, FetchesRight c (r.state i)) ↔ ∀ i ≤ r.len, Unmixed c (r.state i) := by
  constructor
  · exact unmixed_of_fetchesRight r
  · intro h i hi
    exact (inv_of_unmixed r hi fun j hj => h j (by omega)).fetchesRight hc (h i hi)

/-! ### Which paths share a slot -/

/-- Every saved PList lies in the slot of its path. -/
def Slotted (c : Config A K) (s : State A K V N T) : Prop :=
  ∀ t y, y ∈ s.layers t → place c y.2.path 0 0 = some y.1

lemma slotted_try_cache {l : Layers A} {path : List ℕ} {curr : PList A}
    (h : ∀ y ∈ l, place c y.2.path 0 0 = some y.1) :
    ∀ y ∈ try_cache c l path curr, place c y.2.path 0 0 = some y.1 := by
  intro y hy
  rw [try_cache] at hy
  cases hp : place c path 0 0 with
  | none =>
    simp only [hp] at hy
    exact h y hy
  | some x =>
    simp only [hp] at hy
    split_ifs at hy
    · exact h y hy
    · rcases List.mem_cons.mp hy with rfl | hy
      · exact hp
      · exact h y hy
    · exact h y hy

lemma Slotted.step {s' : State A K V N T} {a : Act A K V T} (h : Slotted c s)
    (hs : Step c n s a s') : Slotted c s' := by
  cases hs with
  | @extendedRead t x pc ht he =>
    intro u y hy
    by_cases hu : u = t
    · subst hu
      apply slotted_try_cache (h u) y
      simpa [State.put] using hy
    · apply h u y
      simpa [State.put, hu] using hy
  | _ => exact h

lemma slotted_of_reachable (h : (machine c n).Reachable s) : Slotted c s := by
  induction h with
  | init h =>
    rw [h]
    intro t y hy
    cases hy
  | step _ hs ih => exact ih.step (step_cases hs)

/-- A slot is fetched for another path only on the third layer, where `fetch_cache` adds up the two
buckets of a path with the wrong factor. -/
lemma unmixed_or_shared (hr : (machine c n).Reachable s) (hc : c.cache_depth ≤ 3) :
    Unmixed c s ∨ ∃ t x cache a b a' b', s.pc t = .fetch x ∧
      fetch_cache c (s.layers t) x.path = some cache ∧ x.path = [a, b] ∧ cache.path = [a', b'] ∧
      a * c.plist_size + b = a' * c.plist_size + b' := by
  by_cases hu : Unmixed c s
  · exact .inl hu
  · simp only [Unmixed, not_forall] at hu
    obtain ⟨t, x, cache, ht, hf, hne⟩ := hu
    obtain ⟨y, hy, hl⟩ := Option.bind_eq_some_iff.mp hf
    have hslot : place c cache.path 0 0 = some y :=
      slotted_of_reachable hr t (y, cache) (EList.mem_of_lookup hl)
    rcases place_inj hc hy hslot with hp | ⟨a, b, a', b', hx, hcache, hab⟩
    · exact absurd hp.symm hne
    · exact .inr ⟨t, x, cache, a, b, a', b', ht, hf, hx, hcache, hab⟩

/-! ### Runs of two clients -/

/-- PLists of four buckets and ELists of one pair. -/
def four : Config ℕ (BitVec 64) := { pair false with cache_depth := 3 }

abbrev FourState := State ℕ (BitVec 64) ℕ Bool Bool

abbrev FourAct := Act ℕ (BitVec 64) ℕ Bool

def fourNodes : Nodes Bool Bool := ⟨id, true⟩

def fourStart : FourState := initial four fourNodes

/-- The steps of an insert at depth `d`, and its unlocking write. -/
def put (t : Bool) (k : BitVec 64) (d : ℕ) : List FourAct :=
  .call t (.insert k 0) :: List.replicate (2 * d + 4) (.next t) ++ [.deliver 0, .finish t]

/-- One rehash, with its unlocking write and the way down into the new PList. -/
def split (t : Bool) (a : ℕ) : List FourAct :=
  List.replicate 2 (.next t) ++ [.allocate t a, .next t, .next t, .deliver 0, .next t]

/-- The steps of an insert that finds a full bucket at depth `d` and then one for
every new PList but the last. -/
def grow (t : Bool) (k : BitVec 64) (d : ℕ) (as : List ℕ) : List FourAct :=
  .call t (.insert k 0) :: List.replicate (2 * d) (.next t) ++
    (as.flatMap fun a => split t a ++ List.replicate 2 (.next t)) ++
    List.replicate 3 (.next t) ++ [.deliver 0, .finish t]

/-- The first client fills the root, caches it and reads the cached copy. -/
def calcify : List FourAct :=
  put false 1 1 ++ grow false 3 1 [1] ++ put false 4 1 ++ grow false 6 1 [2] ++
    put false 0 1 ++ grow false 2 1 [3] ++
    .call false (.contains 1) :: List.replicate 7 (.next false) ++ [.deliver 0, .finish false] ++
    [.call false (.contains 1)]

/-- Two keys for every bucket but one of the PList behind the path 0, 4. -/
def pairs : List (BitVec 64 × BitVec 64) :=
  [(633, 1496), (396, 619), (102, 291), (513, 691), (101, 581), (43, 310), (236, 716), (316, 734),
    (1038, 1086), (245, 451), (1135, 1175), (590, 660), (71, 368), (1146, 1289)]

/-- The second client fills the PList behind the path 0, 4, caches it and then looks for the one behind
the path 1, 0. -/
def mixed : List FourAct :=
  put false 13 1 ++ grow false 523 1 [1, 2, 3] ++
    (pairs.zipIdx.flatMap fun x => put true x.1.1 3 ++ grow true x.1.2 3 [4 + x.2]) ++
    .call true (.contains 13) :: List.replicate 11 (.next true) ++ [.deliver 0, .finish true] ++
    put false 48 1 ++
    .call true (.insert 62 0) :: List.replicate 2 (.next true) ++ split true 20 ++
    List.replicate 2 (.next true) ++ split true 21

def fourRun (as : List FourAct) (h : ((machine four fourNodes).exec fourStart as).isSome) :
    (machine four fourNodes : Machine FourState FourAct).Run :=
  .ofActs _ fourStart as rfl h

def calcifyRun : (machine four fourNodes : Machine FourState FourAct).Run :=
  fourRun calcify (by decide +kernel)

def mixedRun : (machine four fourNodes : Machine FourState FourAct).Run :=
  fourRun mixed (by decide +kernel)

/-- The slot that a client is about to fetch, if it is cached: whether it was filled under the
client's path. -/
def hits (c : Config A K) (s : State A K V N T) (t : T) : Option Bool :=
  match s.pc t with
  | .fetch x => (fetch_cache c (s.layers t) x.path).map fun cache => cache.path = x.path
  | _ => none

lemma unmixed_iff : Unmixed c s ↔ ∀ t, hits c s t ≠ some false := by
  constructor
  · intro h t hhit
    cases ht : s.pc t with
    | fetch x =>
      cases hf : fetch_cache c (s.layers t) x.path with
      | none => simp [hits, ht, hf] at hhit
      | some cache => simp [hits, ht, hf, h t x cache ht hf] at hhit
    | _ => simp [hits, ht] at hhit
  · intro h t x cache ht hf
    have hne := h t
    simpa [hits, ht, hf] using hne

lemma hits_calcify : ∀ i < 90, ∀ t, hits four (calcifyRun.state i) t ≠ some false := by
  decide +kernel

/-- The first client reads its cache, and what it reads is right. -/
theorem fetchesRight_calcify : (∀ i ≤ calcifyRun.len, FetchesRight four (calcifyRun.state i)) ∧
    hits four (calcifyRun.state calcifyRun.len) false = some true :=
  ⟨(fetchesRight_iff (Nat.le_refl 3) calcifyRun).mpr fun i hi =>
    unmixed_iff.mpr (hits_calcify i (Nat.lt_succ_of_le hi)), by decide +kernel⟩

theorem not_fetchesRight_mixed : ¬ ∀ (r : (machine four fourNodes : Machine FourState FourAct).Run)
    (i : ℕ), i ≤ r.len → FetchesRight four (r.state i) := by
  intro h
  have hmixed : hits four (mixedRun.state mixedRun.len) true = some false := by decide +kernel
  exact unmixed_iff.mp (unmixed_of_fetchesRight mixedRun (h mixedRun) _ le_rfl) true hmixed

end ObjectCache.Iht.Tuned
