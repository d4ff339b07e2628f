import ObjectCache.Btree.NodeSpecs
import Mathlib.Data.Set.Basic
import Mathlib.Data.Set.Insert

/-! An inner node with its children: splitting it, entering a separator and dropping one. -/

namespace ObjectCache.Btree.Tree

open Lib

variable {A : Type} {d n i j : ℕ}

/-- The bounds of a child. -/
def lowOf (lo : ℤ) (keys : Slots ℤ) (i : ℕ) : ℤ := if i = 0 then lo else keys (i - 1)

def highOf (hi : ℤ) (keys : Slots ℤ) (n i : ℕ) : ℤ := if i < n then keys i else hi

/-- `n` separators between the bounds, and children with a property that depends on the separators
around them. -/
structure Holds (d : ℕ) (P : ℤ → ℤ → A → Prop) (lo hi : ℤ) (n : ℕ) (node : Node A) : Prop extends
    Ordered d node.keys n where
  above : ∀ i < n, lo < node.keys i
  below : ∀ i < n, node.keys i < hi
  child : ∀ i ≤ n, ∃ a, node.ptrs i = some a ∧ P (lowOf lo node.keys i) (highOf hi node.keys n i) a
  null : ∀ i, n < i → i ≤ SIZE d → node.ptrs i = none

def Node.content {β : Type} (d : ℕ) (C : A → Set β) (node : Node A) : Set β :=
  {x | ∃ i ≤ SIZE d, ∃ a, node.ptrs i = some a ∧ x ∈ C a}

/-- The content of the other children. -/
def Node.rest {β : Type} (d : ℕ) (C : A → Set β) (node : Node A) (s : Set ℕ) : Set β :=
  {x | ∃ i ≤ SIZE d, i ∉ s ∧ ∃ a, node.ptrs i = some a ∧ x ∈ C a}

def Node.set (node : Node A) (i : ℕ) (a : A) : Node A :=
  { node with ptrs := Function.update node.ptrs i (some a) }

variable {β : Type} {P : ℤ → ℤ → A → Prop} {lo hi k : ℤ} {node one two : Node A} {a b : A} {C : A → Set β}

/-- The node that stays after a split, and its new neighbour. -/
def Node.lowHalf (d : ℕ) (node : Node A) : Node A :=
  ⟨fun i => if d ≤ i ∧ i < SIZE d then SENTINEL else node.keys i, Tree.lowHalf d (d + 1) none node.ptrs⟩

def Node.highHalf (d : ℕ) (node : Node A) : Node A :=
  ⟨Tree.highHalf d (SIZE d) d SENTINEL node.keys (new : Node A).keys,
    Tree.highHalf d (SIZE d + 1) (d + 1) none node.ptrs (new : Node A).ptrs⟩

lemma halve_returns : Returns (node.halve d) fun r => r = (node.keys d, node.lowHalf d, node.highHalf d) := by
  have hsize : SIZE d = d * 2 + 1 := rfl
  rw [Node.halve]
  refine Ends.bind splitKeys_returns ?_
  rintro r rfl
  refine Ends.bind (moveHalf_returns (by omega)) ?_
  rintro r rfl
  rfl

lemma Holds.halve (h : Holds d P lo hi (SIZE d) node) : Returns (node.halve d) fun r =>
    r.1 = node.keys d ∧ Holds d P lo r.1 d r.2.1 ∧ Holds d P r.1 hi d r.2.2 ∧
      node.content d C = r.2.1.content d C ∪ r.2.2.content d C := by
  have hsize : SIZE d = d * 2 + 1 := rfl
  refine halve_returns.mono ?_
  rintro _ rfl
  refine ⟨rfl, ?_, ?_, ?_⟩
  · refine ⟨⟨by omega, ?_, ?_, ?_⟩, ?_, ?_, ?_, ?_⟩
    all_goals simp only [Node.lowHalf, Tree.lowHalf, lowOf, highOf]
    · intro i j hij hj
      have := h.lt i j hij (by omega)
      grind
    · intro i hi
      have := h.valid i (by omega)
      grind
    · intro i hi hlt
      grind
    · intro i hi
      have := h.above i (by omega)
      grind
    · intro i hi
      have := h.lt i d hi (by omega)
      grind
    · intro i hi
      obtain ⟨a, ha, hP⟩ := h.child i (by omega)
      refine ⟨a, by grind, ?_⟩
      simp only [lowOf, highOf] at hP
      grind
    · intro i hi hlt
      grind
  · refine ⟨⟨by omega, ?_, ?_, ?_⟩, ?_, ?_, ?_, ?_⟩
    all_goals simp only [Node.highHalf, Tree.highHalf, lowOf, highOf]
    · intro i j hij hj
      have := h.lt (d + i + 1) (d + j + 1) (by omega) (by omega)
      grind
    · intro i hi
      have := h.valid (d + i + 1) (by omega)
      grind
    · intro i hi hlt
      grind
    · intro i hi
      have := h.lt d (d + i + 1) (by omega) (by omega)
      grind
    · intro i hi
      have := h.below (d + i + 1) (by omega)
      grind
    · intro i hi
      obtain ⟨a, ha, hP⟩ := h.child (d + i + 1) (by omega)
      refine ⟨a, by grind, ?_⟩
      simp only [lowOf, highOf] at hP
      grind
    · intro i hi hlt
      grind
  · ext x
    simp only [Node.content, Set.mem_union, Set.mem_ofPred_eq, Node.lowHalf, Node.highHalf, Tree.lowHalf,
      Tree.highHalf]
    constructor
    · rintro ⟨i, hi, a, ha, hx⟩
      by_cases hid : i ≤ d
      · exact .inl ⟨i, hi, a, by grind, hx⟩
      · refine .inr ⟨i - (d + 1), by omega, a, ?_, hx⟩
        rw [if_pos (by omega), show d + (i - (d + 1)) + 1 = i by omega]
        exact ha
    · rintro (⟨i, hi, a, ha, hx⟩ | ⟨i, hi, a, ha, hx⟩)
      · exact ⟨i, hi, a, by grind, hx⟩
      · split_ifs at ha with h₁ h₂
        · exact ⟨d + i + 1, by omega, a, ha, hx⟩
        · exact absurd h₂ (by omega)

lemma set_self : (node.set i a).ptrs i = some a := Function.update_self ..

lemma set_other (hj : j ≠ i) : (node.set i a).ptrs j = node.ptrs j := Function.update_of_ne hj ..

lemma content_one (hi : i ≤ SIZE d) (ha : node.ptrs i = some a) :
    node.content d C = C a ∪ node.rest d C {i} := by
  ext x
  simp only [Node.content, Node.rest, Set.mem_union, Set.mem_ofPred_eq, Set.mem_singleton_iff]
  constructor
  · rintro ⟨j, hj, b, hb, hx⟩
    by_cases hji : j = i
    · subst hji
      rw [ha, Option.some.injEq] at hb
      subst hb
      exact .inl hx
    · exact .inr ⟨j, hj, hji, b, hb, hx⟩
  · rintro (hx | ⟨j, hj, -, b, hb, hx⟩)
    · exact ⟨i, hi, a, ha, hx⟩
    · exact ⟨j, hj, b, hb, hx⟩

lemma rest_set : (node.set i a).rest d C {i} = node.rest d C {i} := by
  ext x
  simp only [Node.rest, Node.set, Set.mem_ofPred_eq, Set.mem_singleton_iff]
  refine exists_congr fun j => and_congr_right fun _ => and_congr_right fun hj => ?_
  rw [Function.update_of_ne hj]

lemma content_set (hi : i ≤ SIZE d) : (node.set i a).content d C = C a ∪ node.rest d C {i} := by
  rw [content_one hi set_self, rest_set]

lemma content_two (hij : i < SIZE d) (ha : node.ptrs i = some a) (hb : node.ptrs (i + 1) = some b) :
    node.content d C = C a ∪ C b ∪ node.rest d C {i, i + 1} := by
  rw [content_one hij.le ha, Set.union_assoc]
  congr 1
  ext x
  simp only [Node.rest, Set.mem_union, Set.mem_ofPred_eq, Set.mem_singleton_iff, Set.mem_insert_iff]
  constructor
  · rintro ⟨j, hj, hji, c, hc, hx⟩
    by_cases hj1 : j = i + 1
    · subst hj1
      rw [hb, Option.some.injEq] at hc
      subst hc
      exact .inl hx
    · exact .inr ⟨j, hj, by omega, c, hc, hx⟩
  · rintro (hx | ⟨j, hj, hji, c, hc, hx⟩)
    · exact ⟨i + 1, hij, by omega, b, hb, hx⟩
    · exact ⟨j, hj, by omega, c, hc, hx⟩

lemma Holds.set (h : Holds d P lo hi n node) (hi' : i ≤ n)
    (ha : P (lowOf lo node.keys i) (highOf hi node.keys n i) a) : Holds d P lo hi n (node.set i a) where
  toOrdered := h.toOrdered
  above := h.above
  below := h.below
  child j hj := by
    by_cases hji : j = i
    · subst hji
      exact ⟨a, set_self, ha⟩
    · rw [set_other hji]
      exact h.child j hj
  null j hj hle := by
    rw [set_other (by omega)]
    exact h.null j hj hle

lemma Holds.route (h : Holds d P lo hi n node) (hi' : i ≤ n) (hlow : lowOf lo node.keys i < k)
    (hhigh : k ≤ highOf hi node.keys n i) : Route node.keys n k i := by
  refine ⟨hi', fun j hj => ?_, fun hlt => ?_⟩
  · rw [lowOf, if_neg (by omega)] at hlow
    by_cases hji : j = i - 1
    · rwa [hji]
    · exact Int.lt_trans (h.lt j (i - 1) (by omega) (by omega)) hlow
  · rwa [highOf, if_pos hlt] at hhigh

/-- The bounds of the child where a key goes. -/
lemma Holds.bounds (h : Route node.keys n k i) (hlo : lo < k) (hhi : k ≤ hi) :
    lowOf lo node.keys i < k ∧ k ≤ highOf hi node.keys n i := by
  refine ⟨?_, ?_⟩
  · rw [lowOf]
    split_ifs with hz
    · exact hlo
    · exact h.before _ (by omega)
  · rw [highOf]
    split_ifs with hlt
    · exact h.behind hlt
    · exact hhi

lemma Found.bucket {bucket : ℤ} (h : Found d i bucket) (hi : i < SIZE d) : bucket = i := by
  rcases h with ⟨-, hb⟩ | ⟨hb, -⟩
  · exact hb
  · omega

/-- The separator `k` at slot `i`, with `a` before it and `b` behind it. -/
structure Node.Entered (d i : ℕ) (k : ℤ) (a b : A) (node r : Node A) : Prop where
  keys : ∀ j < SIZE d, r.keys j =
    if j < i then node.keys j else if j = i then k else node.keys (j - 1)
  ptrs : ∀ j ≤ SIZE d, r.ptrs j =
    if j < i then node.ptrs j else if j = i then some a else if j = i + 1 then some b
      else node.ptrs (j - 1)

lemma Ordered.enter (h : Ordered d node.keys n) (hn : n < SIZE d) (hk : k < SENTINEL)
    (hroute : Route node.keys n k i) :
    Returns ((node.set i a).enter d k b) (Node.Entered d i k a b node) := by
  have hi := hroute.le
  rw [Node.enter]
  refine Ends.bind (searchNode_returns (show Ordered d (node.set i a).keys n from h) hk) ?_
  rintro bucket ⟨i', hroute', hfound⟩
  obtain rfl := hroute'.unique hroute
  obtain rfl := hfound.bucket (by omega)
  rw [shiftUp]
  refine Ends.bind (p := fun r => r = ⟨raised (SIZE d) i' node.keys,
    raised (SIZE d + 1) (i' + 1) (node.set i' a).ptrs⟩) ?_ ?_
  · refine Ends.bind raise_returns ?_
    rintro _ rfl
    rw [show (i' : ℤ) + 1 = ((i' + 1 : ℕ) : ℤ) by omega]
    refine Ends.bind raise_returns ?_
    rintro _ rfl
    rfl
  rintro _ rfl
  refine Ends.bind (p := fun r => r = ⟨Function.update (raised (SIZE d) i' node.keys) i' k,
    raised (SIZE d + 1) (i' + 1) (node.set i' a).ptrs⟩) ?_ ?_
  · refine Ends.bind (store_returns (by omega)) ?_
    rintro _ rfl
    rfl
  rintro _ rfl
  rw [Node.setPtr, show (i' : ℤ) + 1 = ((i' + 1 : ℕ) : ℤ) by omega]
  refine Ends.bind (store_returns (by omega)) ?_
  rintro _ rfl
  refine ⟨?_, ?_⟩
  · intro j hj
    show Function.update (raised (SIZE d) i' node.keys) i' k j = _
    simp only [Function.update_apply, raised]
    grind
  · intro j hj
    show Function.update (raised (SIZE d + 1) (i' + 1) (node.set i' a).ptrs) (i' + 1) (some b) j = _
    simp only [Function.update_apply, raised, Node.set]
    grind

/-- A child that is replaced by two, with a separator between them. -/
lemma Holds.enter {Q : ℤ → ℤ → A → Prop} (h : Holds d Q lo hi n node)
    (hrest : ∀ j ≤ n, j ≠ i → ∀ c, node.ptrs j = some c →
      Q (lowOf lo node.keys j) (highOf hi node.keys n j) c →
      P (lowOf lo node.keys j) (highOf hi node.keys n j) c) (hn : n < SIZE d) (hi' : i ≤ n) (hk : k < SENTINEL)
    (hlow : lowOf lo node.keys i < k) (hhigh : k < highOf hi node.keys n i)
    (hlo : lo < k) (hhi : k < hi)
    (ha : P (lowOf lo node.keys i) k a) (hb : P k (highOf hi node.keys n i) b) :
    Returns ((node.set i a).enter d k b) fun r =>
      Holds d P lo hi (n + 1) r ∧ r.content d C = C a ∪ C b ∪ node.rest d C {i} := by
  have hroute := h.route hi' hlow (Int.le_of_lt hhigh)
  refine (h.toOrdered.enter hn hk hroute).mono ?_
  rintro ⟨keys', ptrs'⟩ ⟨hkeys, hptrs⟩
  dsimp only at hkeys hptrs
  have hbehind : ∀ l, i ≤ l → l < n → k < node.keys l := by
    intro l hl hln
    rw [highOf, if_pos (by omega)] at hhigh
    rcases Nat.eq_or_lt_of_le hl with rfl | hlt
    · exact hhigh
    · exact Int.lt_trans hhigh (h.lt i l hlt hln)
  refine ⟨?_, ?_⟩
  · refine ⟨⟨by omega, ?_, ?_, ?_⟩, ?_, ?_, ?_, ?_⟩
    · intro j l hjl hl
      show keys' j < keys' l
      rw [hkeys j (by omega), hkeys l (by omega)]
      have h₁ := h.lt j l hjl
      have h₂ := h.lt j (l - 1)
      have h₃ := h.lt (j - 1) (l - 1)
      have h₄ : j < i → node.keys j < k := hroute.before j
      have h₅ := hbehind (l - 1)
      grind
    · intro j hj
      show keys' j < SENTINEL
      rw [hkeys j (by omega)]
      have h₁ := h.valid j
      have h₂ := h.valid (j - 1)
      grind
    · intro j hj hlt
      show keys' j = SENTINEL
      rw [hkeys j (by omega)]
      have h₂ := h.free (j - 1)
      grind
    · intro j hj
      show lo < keys' j
      rw [hkeys j (by omega)]
      have h₁ := h.above j
      have h₂ := h.above (j - 1)
      grind
    · intro j hj
      show keys' j < hi
      rw [hkeys j (by omega)]
      have h₁ := h.below j
      have h₂ := h.below (j - 1)
      grind
    · intro j hj
      show ∃ c, ptrs' j = some c ∧ P (lowOf lo keys' j) (highOf hi keys' (n + 1) j) c
      rw [hptrs j (by omega)]
      simp only [lowOf, highOf] at ha hb ⊢
      rcases Nat.lt_trichotomy j i with hlt | rfl | hgt
      · obtain ⟨c, hc, hQ⟩ := h.child j (by omega)
        have hP := hrest j (by omega) (by omega) c hc hQ
        refine ⟨c, by rw [if_pos hlt, hc], ?_⟩
        rw [hkeys j (by omega), hkeys (j - 1) (by omega)]
        simp only [lowOf, highOf] at hP
        grind
      · refine ⟨a, by simp, ?_⟩
        rw [hkeys j (by omega), hkeys (j - 1) (by omega)]
        grind
      · by_cases hj1 : j = i + 1
        · refine ⟨b, by grind, ?_⟩
          rw [hkeys (j - 1) (by omega)]
          have hj' := hkeys j
          grind
        · obtain ⟨m, rfl⟩ : ∃ m, j = m + 2 := ⟨j - 2, by omega⟩
          obtain ⟨c, hc, hQ⟩ := h.child (m + 1) (by omega)
          have hP := hrest (m + 1) (by omega) (by omega) c hc hQ
          refine ⟨c, by grind, ?_⟩
          have hm := hkeys (m + 1) (by omega)
          have hm' := hkeys (m + 2)
          simp only [lowOf, highOf, Nat.add_one_sub_one] at hP ⊢
          grind
    · intro j hj hlt
      show ptrs' j = none
      rw [hptrs j (by omega)]
      have := h.null (j - 1)
      grind
  · ext x
    simp only [Node.content, Node.rest, Set.mem_union, Set.mem_ofPred_eq, Set.mem_singleton_iff]
    constructor
    · rintro ⟨j, hj, c, hc, hx⟩
      rw [hptrs j hj] at hc
      split_ifs at hc with h₁ h₂ h₃
      · exact .inr ⟨j, hj, by omega, c, hc, hx⟩
      · cases hc
        exact .inl (.inl hx)
      · cases hc
        exact .inl (.inr hx)
      · exact .inr ⟨j - 1, by omega, by omega, c, hc, hx⟩
    · rintro ((hx | hx) | ⟨j, hj, hji, c, hc, hx⟩)
      · exact ⟨i, by omega, a, by rw [hptrs i (by omega)]; simp, hx⟩
      · exact ⟨i + 1, by omega, b, by rw [hptrs (i + 1) (by omega)]; simp, hx⟩
      · by_cases hlt : j < i
        · exact ⟨j, hj, c, by rw [hptrs j hj, if_pos hlt, hc], hx⟩
        · have hjn : j ≤ n := by
            by_contra hjn
            rw [h.null j (by omega) hj] at hc
            cases hc
          refine ⟨j + 1, by omega, c, ?_, hx⟩
          rw [hptrs (j + 1) (by omega)]
          grind

lemma shiftDown_returns (hi' : i < SIZE d) : Returns (shiftDown d node i) fun r =>
    r = (node.keys i, ⟨Function.update (lowered (SIZE d) i node.keys) (SIZE d - 1) SENTINEL,
      Function.update (lowered (SIZE d + 1) (i + 1) node.ptrs) (SIZE d) none⟩) := by
  rw [shiftDown]
  refine Ends.bind (load_returns hi') ?_
  rintro _ rfl
  rw [Int.toNat_natCast]
  refine Ends.bind lower_returns ?_
  rintro _ rfl
  refine Ends.bind (store_returns (by omega)) ?_
  rintro _ rfl
  refine Ends.bind lower_returns ?_
  rintro _ rfl
  refine Ends.bind (store_returns (by omega)) ?_
  rintro _ rfl
  rfl

/-- The slots without the separator at `i` and the pointer behind it. -/
structure Node.Dropped (d i : ℕ) (node r : Node A) : Prop where
  keys : ∀ j < SIZE d, r.keys j =
    if j < i then node.keys j else if j + 1 < SIZE d then node.keys (j + 1) else SENTINEL
  ptrs : ∀ j ≤ SIZE d, j ≠ i →
    r.ptrs j = if j < i then node.ptrs j else if j < SIZE d then node.ptrs (j + 1) else none

lemma shiftDown_slots (hi' : i < SIZE d) :
    Returns (shiftDown d node i) fun r => r.1 = node.keys i ∧ node.Dropped d i r.2 := by
  refine (shiftDown_returns hi').mono ?_
  rintro _ rfl
  refine ⟨rfl, ?_, ?_⟩
  · intro j hj
    simp only [Function.update_apply, lowered]
    grind
  · intro j hj hji
    simp only [Function.update_apply, lowered]
    grind

/-- Two children that are replaced by one, without the separator between them. -/
lemma Holds.drop {Q : ℤ → ℤ → A → Prop} (h : Holds d Q lo hi n node)
    (hrest : ∀ j ≤ n, j ≠ i → j ≠ i + 1 → ∀ c, node.ptrs j = some c →
      Q (lowOf lo node.keys j) (highOf hi node.keys n j) c →
      P (lowOf lo node.keys j) (highOf hi node.keys n j) c) (hi' : i < n)
    (ha : P (lowOf lo node.keys i) (highOf hi node.keys n (i + 1)) a) :
    Returns (shiftDown d node i) fun r => r.1 = node.keys i ∧ Holds d P lo hi (n - 1) (r.2.set i a) ∧
      (r.2.set i a).content d C = C a ∪ node.rest d C {i, i + 1} := by
  have hcount := h.count
  refine (shiftDown_slots (by omega)).mono ?_
  rintro ⟨_, keys', ptrs'⟩ ⟨rfl, hkeys, hptrs⟩
  dsimp only at hkeys hptrs
  refine ⟨rfl, ?_, ?_⟩
  · refine ⟨⟨by omega, ?_, ?_, ?_⟩, ?_, ?_, ?_, ?_⟩
    · intro j l hjl hl
      show keys' j < keys' l
      rw [hkeys j (by omega), hkeys l (by omega)]
      have h₁ := h.lt j l hjl
      have h₂ := h.lt j (l + 1)
      have h₃ := h.lt (j + 1) (l + 1)
      grind
    · intro j hj
      show keys' j < SENTINEL
      rw [hkeys j (by omega)]
      have h₁ := h.valid j
      have h₂ := h.valid (j + 1)
      grind
    · intro j hj hlt
      show keys' j = SENTINEL
      rw [hkeys j (by omega)]
      have h₁ := h.free (j + 1)
      grind
    · intro j hj
      show lo < keys' j
      rw [hkeys j (by omega)]
      have h₁ := h.above j
      have h₂ := h.above (j + 1)
      grind
    · intro j hj
      show keys' j < hi
      rw [hkeys j (by omega)]
      have h₁ := h.below j
      have h₂ := h.below (j + 1)
      grind
    · intro j hj
      show ∃ c, _ ∧ P (lowOf lo keys' j) (highOf hi keys' (n - 1) j) c
      have hj' := hkeys j
      have hj'' := hkeys (j - 1)
      by_cases hji : j = i
      · subst hji
        refine ⟨a, set_self, ?_⟩
        simp only [lowOf, highOf] at ha ⊢
        grind
      · rw [set_other hji]
        show ∃ c, ptrs' j = some c ∧ _
        rw [hptrs j (by omega) hji]
        by_cases hlt : j < i
        · obtain ⟨c, hc, hQ⟩ := h.child j (by omega)
          have hP := hrest j (by omega) (by omega) (by omega) c hc hQ
          refine ⟨c, by rw [if_pos hlt, hc], ?_⟩
          simp only [lowOf, highOf] at hP ⊢
          grind
        · obtain ⟨c, hc, hQ⟩ := h.child (j + 1) (by omega)
          have hP := hrest (j + 1) (by omega) (by omega) (by omega) c hc hQ
          obtain ⟨m, rfl⟩ : ∃ m, j = m + 1 := ⟨j - 1, by omega⟩
          refine ⟨c, by grind, ?_⟩
          simp only [lowOf, highOf, Nat.add_one_sub_one] at hP hj'' ⊢
          grind
    · intro j hj hlt
      rw [set_other (by omega)]
      show ptrs' j = none
      rw [hptrs j (by omega) (by omega)]
      have := h.null (j + 1)
      grind
  · rw [content_set (by omega)]
    congr 1
    ext x
    simp only [Node.rest, Set.mem_ofPred_eq, Set.mem_singleton_iff, Set.mem_insert_iff]
    constructor
    · rintro ⟨j, hj, hji, c, hc, hx⟩
      rw [hptrs j hj hji] at hc
      split_ifs at hc with h₁ h₂
      · exact ⟨j, hj, by omega, c, hc, hx⟩
      · exact ⟨j + 1, h₂, by omega, c, hc, hx⟩
    · rintro ⟨j, hj, hji, c, hc, hx⟩
      by_cases hlt : j < i
      · exact ⟨j, hj, by omega, c, by rw [hptrs j hj (by omega), if_pos hlt, hc], hx⟩
      · obtain ⟨m, rfl⟩ : ∃ m, j = m + 1 := ⟨j - 1, by omega⟩
        refine ⟨m, by omega, by omega, c, ?_, hx⟩
        show ptrs' m = _
        rw [hptrs m (by omega) (by omega)]
        grind

/-! ### Merging two nodes -/

/-- The left node, the separator at `m` and the first `l` entries of the right node. -/
def joinedKeys (one two : Slots ℤ) (k : ℤ) (m l : ℕ) : Slots ℤ := fun j =>
  if j < m then one j else if j = m then k else if j ≤ m + l then two (j - m - 1) else one j

def joinedPtrs (one two : Slots (Option A)) (m l : ℕ) : Slots (Option A) := fun j =>
  if j ≤ m then one j else if j ≤ m + l + 1 then two (j - m - 1) else one j

lemma appendNode_returns {m : ℕ} (h : Ordered d two.keys n) (hsum : m + n + 1 ≤ SIZE d)
    {rounds l : ℕ} (hl : l ≤ n) (hr : rounds + l = SIZE d) :
    Returns (appendNode d two rounds l (m + 1 + l)
      ⟨joinedKeys one.keys two.keys k m l, joinedPtrs one.ptrs two.ptrs m l⟩) fun r =>
      r = ⟨joinedKeys one.keys two.keys k m n, joinedPtrs one.ptrs two.ptrs m n⟩ := by
  induction rounds generalizing l with
  | zero => omega
  | succ rounds ih =>
    rw [appendNode]
    refine Ends.bind (load_returns (by omega)) ?_
    rintro _ rfl
    split_ifs with hfree
    · have hln : l = n := by
        by_contra hne
        have := h.valid l (by omega)
        omega
      rw [hln]
      rfl
    · have hlt : l < n := by
        by_contra hge
        exact hfree (h.free l (by omega) (by omega))
      have hkeys : Function.update (joinedKeys one.keys two.keys k m l) (m + 1 + l) (two.keys l) =
          joinedKeys one.keys two.keys k m (l + 1) := by
        funext j
        simp only [Function.update_apply, joinedKeys]
        grind
      have hptrs : Function.update (joinedPtrs one.ptrs two.ptrs m l) (m + 1 + l + 1)
          (two.ptrs (l + 1)) = joinedPtrs one.ptrs two.ptrs m (l + 1) := by
        funext j
        simp only [Function.update_apply, joinedPtrs]
        grind
      refine Ends.bind (p := fun r => r = ⟨joinedKeys one.keys two.keys k m (l + 1),
        joinedPtrs one.ptrs two.ptrs m l⟩) ?_ ?_
      · refine Ends.bind (store_returns (by omega)) ?_
        rintro _ rfl
        show (⟨_, _⟩ : Node A) = ⟨_, _⟩
        rw [hkeys]
      rintro _ rfl
      rw [ptrAt, show (l : ℤ) + 1 = ((l + 1 : ℕ) : ℤ) by omega]
      refine Ends.bind (load_returns (by omega)) ?_
      rintro _ rfl
      refine Ends.bind (p := fun r => r = ⟨joinedKeys one.keys two.keys k m (l + 1),
        joinedPtrs one.ptrs two.ptrs m (l + 1)⟩) ?_ ?_
      · rw [Node.setPtr, show ((m + 1 + l : ℕ) : ℤ) + 1 = ((m + 1 + l + 1 : ℕ) : ℤ) by omega]
        refine Ends.bind (store_returns (by omega)) ?_
        rintro _ rfl
        show (⟨_, _⟩ : Node A) = ⟨_, _⟩
        rw [hptrs]
      rintro _ rfl
      exact ih (by omega) (by omega)

lemma mergeNode_returns {B : Type} {m : ℕ} {parent : Node B} {Q : Node B → Prop} (h₁ : Ordered d one.keys m)
    (h₂ : Ordered d two.keys n) (hsum : m + n + 1 ≤ SIZE d)
    (hdrop : Returns (shiftDown d parent i) fun r => r.1 = k ∧ Q r.2) :
    Returns (mergeNode d one two i parent) fun r =>
      r.1 = ⟨joinedKeys one.keys two.keys k m n, joinedPtrs one.ptrs two.ptrs m n⟩ ∧ Q r.2 := by
  rw [mergeNode]
  refine Ends.bind hdrop ?_
  rintro ⟨k', parent'⟩ ⟨hk', hQ⟩
  obtain rfl : k = k' := hk'.symm
  refine Ends.bind (firstFree_returns h₁ (by omega) (Nat.zero_le _) (by omega)) ?_
  rintro m' hm'
  obtain rfl : m = m' := hm'.symm
  refine Ends.bind (p := fun r => r = ⟨Function.update one.keys m k, one.ptrs⟩) ?_ ?_
  · refine Ends.bind (store_returns (by omega)) ?_
    rintro _ rfl
    rfl
  rintro _ rfl
  refine Ends.bind (load_returns (i := 0) (by omega)) ?_
  rintro _ rfl
  have hkeys : Function.update one.keys m k = joinedKeys one.keys two.keys k m 0 := by
    funext j
    simp only [Function.update_apply, joinedKeys]
    grind
  have hptrs : Function.update one.ptrs (m + 1) (two.ptrs 0) = joinedPtrs one.ptrs two.ptrs m 0 := by
    funext j
    simp only [Function.update_apply, joinedPtrs]
    grind
  refine Ends.bind (p := fun r => r = ⟨joinedKeys one.keys two.keys k m 0,
    joinedPtrs one.ptrs two.ptrs m 0⟩) ?_ ?_
  · rw [Node.setPtr, show (m : ℤ) + 1 = ((m + 1 : ℕ) : ℤ) by omega]
    refine Ends.bind (store_returns (by omega)) ?_
    rintro _ rfl
    show (⟨_, _⟩ : Node A) = ⟨_, _⟩
    rw [hkeys, hptrs]
  rintro _ rfl
  refine Ends.bind (appendNode_returns h₂ hsum (Nat.zero_le _) rfl) ?_
  rintro _ rfl
  exact ⟨rfl, hQ⟩

lemma Holds.join {m : ℕ} (h₁ : Holds d P lo k m one) (h₂ : Holds d P k hi n two)
    (hsum : m + n + 1 ≤ SIZE d) (hlo : lo < k) (hhi : k < hi) (hk : k < SENTINEL) :
    Holds d P lo hi (m + n + 1)
        ⟨joinedKeys one.keys two.keys k m n, joinedPtrs one.ptrs two.ptrs m n⟩ ∧
      Node.content d C ⟨joinedKeys one.keys two.keys k m n, joinedPtrs one.ptrs two.ptrs m n⟩ =
        one.content d C ∪ two.content d C := by
  refine ⟨⟨⟨hsum, ?_, ?_, ?_⟩, ?_, ?_, ?_, ?_⟩, ?_⟩
  · intro j l hjl hl
    show joinedKeys one.keys two.keys k m n j < joinedKeys one.keys two.keys k m n l
    simp only [joinedKeys]
    have e₁ := h₁.lt j l hjl
    have e₂ := h₁.below j
    have e₃ := h₂.above (j - m - 1)
    have e₄ := h₂.above (l - m - 1)
    have e₅ := h₂.lt (j - m - 1) (l - m - 1)
    grind
  · intro j hj
    show joinedKeys one.keys two.keys k m n j < SENTINEL
    simp only [joinedKeys]
    have e₁ := h₁.valid j
    have e₂ := h₂.valid (j - m - 1)
    grind
  · intro j hj hlt
    show joinedKeys one.keys two.keys k m n j = SENTINEL
    simp only [joinedKeys]
    have e₁ := h₁.free j
    grind
  · intro j hj
    show lo < joinedKeys one.keys two.keys k m n j
    simp only [joinedKeys]
    have e₁ := h₁.above j
    have e₂ := h₂.above (j - m - 1)
    grind
  · intro j hj
    show joinedKeys one.keys two.keys k m n j < hi
    simp only [joinedKeys]
    have e₁ := h₁.below j
    have e₂ := h₂.below (j - m - 1)
    grind
  · intro j hj
    by_cases hjm : j ≤ m
    · obtain ⟨c, hc, hP⟩ := h₁.child j hjm
      refine ⟨c, by simp only [joinedPtrs, if_pos hjm, hc], ?_⟩
      simp only [lowOf, highOf, joinedKeys] at hP ⊢
      grind
    · obtain ⟨l, rfl⟩ : ∃ l, j = m + l + 1 := ⟨j - m - 1, by omega⟩
      obtain ⟨c, hc, hP⟩ := h₂.child l (by omega)
      refine ⟨c, ?_, ?_⟩
      · simp only [joinedPtrs]
        rw [if_neg (by omega), if_pos (by omega), show m + l + 1 - m - 1 = l by omega, hc]
      · simp only [lowOf, highOf, joinedKeys, Nat.add_one_sub_one] at hP ⊢
        have e₁ : m + l + 1 - m - 1 = l := by omega
        have e₂ : m + l - m - 1 = l - 1 := by omega
        rw [e₁, e₂]
        grind
  · intro j hj hlt
    show joinedPtrs one.ptrs two.ptrs m n j = none
    simp only [joinedPtrs]
    have e₁ := h₁.null j
    grind
  · ext x
    simp only [Node.content, Set.mem_union, Set.mem_ofPred_eq, joinedPtrs]
    constructor
    · rintro ⟨j, hj, c, hc, hx⟩
      split_ifs at hc with e₁ e₂
      · exact .inl ⟨j, hj, c, hc, hx⟩
      · exact .inr ⟨j - m - 1, by omega, c, hc, hx⟩
      · exact .inl ⟨j, hj, c, hc, hx⟩
    · rintro (⟨j, hj, c, hc, hx⟩ | ⟨j, hj, c, hc, hx⟩)
      · have hjm : j ≤ m := by
          by_contra hgt
          rw [h₁.null j (by omega) hj] at hc
          cases hc
        exact ⟨j, hj, c, by rw [if_pos hjm, hc], hx⟩
      · have hjn : j ≤ n := by
          by_contra hgt
          rw [h₂.null j (by omega) hj] at hc
          cases hc
        refine ⟨m + j + 1, by omega, c, ?_, hx⟩
        rw [if_neg (by omega), if_pos (by omega), show m + j + 1 - m - 1 = j by omega, hc]

end ObjectCache.Btree.Tree
