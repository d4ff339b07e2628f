import ObjectCache.Iht.TunedSteps
import ObjectCache.Iht.RdmaLocks

/-! Bucket paths, the slots of the private cache that they are given, and what a saved PList says as
long as no slot serves two paths. -/

set_option linter.unusedSectionVars false

namespace ObjectCache.Iht.Tuned

open Lib Cache Rdma

variable {A K V N T : Type} {c : Config A K} {m m' : Memory A K V} {k k' : K} {p q : A} {n i j : ℕ}
  {path : List ℕ}

/-! ### Bucket paths -/

/-- The first buckets on the path of a key. -/
def bucketPath (c : Config A K) (k : K) (n : ℕ) : List ℕ := (List.range n).map fun d => c.slot d k

/-- The PList behind a bucket path. -/
def follow (m : Memory A K V) (p : A) : List ℕ → Option A
  | [] => some p
  | i :: path => (m.plists p i).base.child.bind fun q => follow m q path

@[simp] lemma length_bucketPath : (bucketPath c k n).length = n := by
  simp [bucketPath]

lemma bucketPath_succ : bucketPath c k (n + 1) = bucketPath c k n ++ [c.slot n k] := by
  simp [bucketPath, List.range_succ]

lemma follow_append : follow m p (path ++ [i]) =
    (follow m p path).bind fun q => (m.plists q i).base.child := by
  induction path generalizing p with
  | nil => simp [follow]
  | cons j path ih =>
    cases hc : (m.plists p j).base.child with
    | none => simp [follow, hc]
    | some q => simp [follow, hc, ih]

lemma follow_bucketPath : follow m c.root (bucketPath c k n) = (m.trie c).path c.slot k n := by
  induction n with
  | zero => rfl
  | succ n ih =>
    rw [bucketPath_succ, follow_append, ih]
    rfl

/-! ### Slots -/

lemma slot_lt_count : c.slot n k < c.plist_size * 2 ^ n - 1 := by
  have hsize : 4 ≤ c.plist_size * 2 ^ n :=
    le_trans c.plist_min (Nat.le_mul_of_pos_right _ (Nat.one_le_two_pow))
  exact Nat.mod_lt _ (by omega)

/-- The index of a cached path, written out. -/
lemma place_cases (hc : c.cache_depth ≤ 3) (h : place c path 0 0 = some (i, j)) :
    path = [] ∧ i = 0 ∧ j = 0 ∨ (∃ n, path = [n] ∧ i = 1 ∧ j = n) ∨
      ∃ n l, path = [n, l] ∧ i = 2 ∧ j = n * c.plist_size + l := by
  cases path with
  | nil =>
    simp only [place] at h
    split_ifs at h with h0
    simp only [Option.some.injEq, Prod.mk.injEq] at h
    exact .inl ⟨rfl, h.1.symm, h.2.symm⟩
  | cons n path =>
    cases path with
    | nil =>
      simp only [place] at h
      split_ifs at h with h0 h1
      simp only [sizes, Option.some.injEq, Prod.mk.injEq] at h
      exact .inr (.inl ⟨n, rfl, h.1.symm, by omega⟩)
    | cons l path =>
      cases path with
      | nil =>
        simp only [place] at h
        split_ifs at h with h0 h1 h2
        simp only [sizes, Option.some.injEq, Prod.mk.injEq] at h
        exact .inr (.inr ⟨n, l, rfl, h.1.symm, by rw [← h.2]; simp⟩)
      | cons o path =>
        simp only [place] at h
        split_ifs at h with h0 h1 h2
        cases path with
        | nil =>
          simp only [place] at h
          split_ifs at h with h3
          omega
        | cons a path =>
          simp only [place] at h
          split_ifs at h with h3
          omega

/-- Every index is within its layer. -/
lemma place_lt (hc : c.cache_depth ≤ 3) (h : place c (bucketPath c k n) 0 0 = some (i, j)) :
    j < layerSize c i := by
  have hp := c.plist_min
  have h0 : c.slot 0 k < c.plist_size * 2 ^ 0 - 1 := slot_lt_count
  have h1 : c.slot 1 k < c.plist_size * 2 ^ 1 - 1 := slot_lt_count
  rcases place_cases hc h with ⟨-, rfl, rfl⟩ | ⟨l, hl, rfl, hj⟩ | ⟨l, o, hl, rfl, rfl⟩
  · exact Nat.one_pos
  · obtain rfl : n = 1 := by simpa using congrArg List.length hl
    have hl' : [c.slot 0 k] = [l] := hl
    obtain rfl : c.slot 0 k = l := by simpa using hl'
    simp only [layerSize]
    omega
  · obtain rfl : n = 2 := by simpa using congrArg List.length hl
    have hlo : [c.slot 0 k, c.slot 1 k] = [l, o] := hl
    obtain ⟨rfl, rfl⟩ : c.slot 0 k = l ∧ c.slot 1 k = o := by simpa using hlo
    have hrow : (c.slot 0 k + 1) * c.plist_size ≤ c.plist_size * c.plist_size :=
      Nat.mul_le_mul_right _ (by omega)
    have hsquare : 4 * c.plist_size ≤ c.plist_size * c.plist_size := Nat.mul_le_mul_right _ hp
    rw [Nat.succ_mul] at hrow
    simp only [layerSize]
    omega

/-- Paths share a slot only on the third layer, where their indices are added up. -/
lemma place_inj {path' : List ℕ} (hc : c.cache_depth ≤ 3) (h : place c path 0 0 = some (i, j))
    (h' : place c path' 0 0 = some (i, j)) : path = path' ∨ ∃ a b a' b', path = [a, b] ∧
      path' = [a', b'] ∧ a * c.plist_size + b = a' * c.plist_size + b' := by
  rcases place_cases hc h with ⟨rfl, rfl, rfl⟩ | ⟨a, rfl, rfl, rfl⟩ | ⟨a, b, rfl, rfl, rfl⟩
  · rcases place_cases hc h' with ⟨rfl, -⟩ | ⟨-, -, hi, -⟩ | ⟨-, -, -, hi, -⟩
    · exact .inl rfl
    · cases hi
    · cases hi
  · rcases place_cases hc h' with ⟨-, hi, -⟩ | ⟨a', rfl, -, rfl⟩ | ⟨-, -, -, hi, -⟩
    · cases hi
    · exact .inl rfl
    · cases hi
  · rcases place_cases hc h' with ⟨-, hi, -⟩ | ⟨-, -, hi, -⟩ | ⟨a', b', rfl, -, hj⟩
    · cases hi
    · cases hi
    · exact .inr ⟨a, b, a', b', rfl, rfl, hj⟩

/-! ### Saved PLists -/

variable [DecidableEq A] {e : Saved A} {curr : PList A}

/-- A copy of a calcified PList, saved under the path that leads to it. -/
def Saved.Ok (c : Config A K) (m : Memory A K V) (e : Saved A) : Prop :=
  ∃ k n p, e.path = bucketPath c k n ∧ (m.trie c).path c.slot k n = some p ∧
    e.length = c.plist_size * 2 ^ n ∧ (∀ b, (e.buckets b).Tells m p b) ∧
    ∀ b < e.length - 1, (e.buckets b).lock = .p_unlocked

lemma Saved.Ok.grows (h : e.Ok c m) (hg : Grows m m') : e.Ok c m' := by
  obtain ⟨k, n, p, hpath, hp, hlen, htells, hlock⟩ := h
  exact ⟨k, n, p, hpath, hg.path hp, hlen, fun b => (htells b).grows hg, hlock⟩

/-- The PList that the path of a saved copy leads to. -/
lemma Saved.Ok.follow_eq (h : e.Ok c m) : ∃ p, follow m c.root e.path = some p ∧
    e.length = c.plist_size * 2 ^ e.path.length ∧ (∀ b, (e.buckets b).Tells m p b) ∧
    ∀ b < e.length - 1, (e.buckets b).lock = .p_unlocked := by
  obtain ⟨k, n, p, hpath, hp, hlen, htells, hlock⟩ := h
  refine ⟨p, ?_, ?_, htells, hlock⟩
  · rw [hpath, follow_bucketPath, hp]
  · rw [hpath, length_bucketPath, hlen]

/-- The last bucket of a PList is no key's. -/
lemma base_last (h : m.Inv c) (hp : (m.trie c).path c.slot k n = some p)
    (hj : c.plist_size * 2 ^ n - 1 ≤ j) : (m.plists p j).base = .elist p j := by
  by_contra hb
  obtain ⟨k', d, hp', hs⟩ := h.touched fun ht => hb (by rw [ht]; rfl)
  obtain rfl := h.tree.placed.level hp hp'
  have hlt : c.slot n k' < c.plist_size * 2 ^ n - 1 := slot_lt_count
  omega

/-- A saved copy has the length and the pointers of its PList. -/
lemma Saved.Ok.base_eq (h : e.Ok c m) (hm : m.Inv c) (hp : follow m c.root e.path = some p) (j : ℕ) :
    (e.buckets j).base = (m.plists p j).base := by
  obtain ⟨k, n, q, hpath, hq, hlen, htells, hlock⟩ := h
  rw [hpath, follow_bucketPath, hq] at hp
  cases hp
  by_cases hlast : j < e.length - 1
  · obtain ⟨r, marked, hb, hb'⟩ := (htells j).plist (hlock j hlast)
    rw [hb, hb']
  · have hbase := base_last hm hq (j := j) (by omega)
    rw [(htells j).elist hbase, hbase]

/-- What `try_cache` leaves in the layers. -/
lemma mem_try_cache {l : Layers A} {y : (ℕ × ℕ) × Saved A} (h : y ∈ try_cache c l path curr) :
    y ∈ l ∨ y.2 = ⟨path, c.plist_size * 2 ^ path.length, curr⟩ ∧
      ∀ b < c.plist_size * 2 ^ path.length - 1, (curr b).lock = .p_unlocked := by
  rw [try_cache] at h
  cases hp : place c path 0 0 with
  | none =>
    simp only [hp] at h
    exact .inl h
  | some x =>
    simp only [hp] at h
    split_ifs at h with hs hall
    · exact .inl h
    · rcases List.mem_cons.mp h with rfl | h
      · exact .inr ⟨rfl, hall⟩
      · exact .inl h
    · exact .inl h

lemma mem_of_fetch_cache {l : Layers A} (h : fetch_cache c l path = some e) :
    ∃ x, (x, e) ∈ l := by
  obtain ⟨x, -, hx⟩ := Option.bind_eq_some_iff.mp h
  exact ⟨x, EList.mem_of_lookup hx⟩

end ObjectCache.Iht.Tuned
