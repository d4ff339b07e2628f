import ObjectCache.Btree.NodeSpecs
import Mathlib.Data.Set.Basic
import Mathlib.Data.Set.Insert

/-! The pairs of a leaf: splitting it, merging it with its neighbour, and the effects of `insert` and
`remove`. -/

namespace ObjectCache.Btree.Tree

open Lib

variable {A V : Type} {d n m i j : ℕ} {lo hi k key : ℤ} {leaf one two : Leaf V} {value : V}

/-- `n` keys between the bounds. -/
structure Leaf.Holds (d : ℕ) (lo hi : ℤ) (n : ℕ) (leaf : Leaf V) : Prop extends
    Ordered d leaf.keys n where
  above : ∀ i < n, lo < leaf.keys i
  below : ∀ i < n, leaf.keys i ≤ hi

def Leaf.content (d : ℕ) (leaf : Leaf V) : Set (ℤ × V) :=
  {x | ∃ i < SIZE d, leaf.keys i ≠ SENTINEL ∧ x = (leaf.keys i, leaf.values i)}

lemma Ordered.mem_content (h : Ordered d leaf.keys n) {x : ℤ × V} :
    x ∈ leaf.content d ↔ ∃ i < n, x = (leaf.keys i, leaf.values i) := by
  have hcount := h.count
  constructor
  · rintro ⟨i, hi, hk, rfl⟩
    by_cases hin : i < n
    · exact ⟨i, hin, rfl⟩
    · exact absurd (h.free i (by omega) hi) hk
  · rintro ⟨i, hi, rfl⟩
    have := h.valid i hi
    exact ⟨i, by omega, by omega, rfl⟩

lemma Leaf.Holds.bounds (h : leaf.Holds d lo hi n) {x : ℤ × V} (hx : x ∈ leaf.content d) :
    lo < x.1 ∧ x.1 ≤ hi := by
  obtain ⟨i, hi, rfl⟩ := h.mem_content.mp hx
  exact ⟨h.above i hi, h.below i hi⟩

/-- The leaf that stays after a split, and its new neighbour. -/
def Leaf.lowHalf [IntCast V] (d : ℕ) (leaf : Leaf V) : Leaf V :=
  ⟨fun i => if d + 1 ≤ i ∧ i < SIZE d then SENTINEL else leaf.keys i,
    Tree.lowHalf d d (SENTINEL : V) leaf.values, leaf.key_low, leaf.keys d⟩

def Leaf.highHalf [IntCast V] (d : ℕ) (leaf : Leaf V) : Leaf V :=
  ⟨Tree.highHalf d (SIZE d) d SENTINEL leaf.keys (new : Leaf V).keys,
    Tree.highHalf d (SIZE d) d (SENTINEL : V) leaf.values (new : Leaf V).values, leaf.keys d, leaf.key_high⟩

lemma Leaf.halve_returns [IntCast V] :
    Returns (leaf.halve d) fun r => r = (leaf.keys d, leaf.lowHalf d, leaf.highHalf d) := by
  have hsize : SIZE d = d * 2 + 1 := rfl
  rw [Leaf.halve]
  refine Ends.bind splitKeys_returns ?_
  rintro _ rfl
  refine Ends.bind (moveHalf_returns (by omega)) ?_
  rintro _ rfl
  rfl

/-- What `split_node` makes of a full leaf. -/
structure Halves (d : ℕ) (lo hi : ℤ) (leaf : Leaf V) (r : ℤ × Leaf V × Leaf V) : Prop where
  separator : r.1 = leaf.keys d
  left : r.2.1.Holds d lo r.1 (d + 1)
  right : r.2.2.Holds d r.1 hi d
  content : leaf.content d = r.2.1.content d ∪ r.2.2.content d
  left_range : r.2.1.key_low = leaf.key_low ∧ r.2.1.key_high = r.1
  right_range : r.2.2.key_low = r.1 ∧ r.2.2.key_high = leaf.key_high

lemma Leaf.Holds.halve [IntCast V] (h : leaf.Holds d lo hi (SIZE d)) :
    Returns (leaf.halve d) (Halves d lo hi leaf) := by
  have hsize : SIZE d = d * 2 + 1 := rfl
  refine Leaf.halve_returns.mono ?_
  rintro _ rfl
  have hleft : (leaf.lowHalf d).Holds d lo (leaf.keys d) (d + 1) := by
    refine ⟨⟨by omega, ?_, ?_, ?_⟩, ?_, ?_⟩
    all_goals simp only [Leaf.lowHalf]
    · intro i j hij hj
      have := h.lt i j hij (by omega)
      grind
    · intro i hi
      have := h.valid i (by omega)
      grind
    · intro i hi hlt
      grind
    · intro i hi
      have := h.above i (by omega)
      grind
    · intro i hi
      have := h.lt i d
      grind
  have hright : (leaf.highHalf d).Holds d (leaf.keys d) hi d := by
    refine ⟨⟨by omega, ?_, ?_, ?_⟩, ?_, ?_⟩
    all_goals simp only [Leaf.highHalf, Tree.highHalf]
    · intro i j hij hj
      have := h.lt (d + i + 1) (d + j + 1) (by omega) (by omega)
      grind
    · intro i hi
      have := h.valid (d + i + 1) (by omega)
      grind
    · intro i hi hlt
      grind
    · intro i hi
      have := h.lt d (d + i + 1) (by omega) (by omega)
      grind
    · intro i hi
      have := h.below (d + i + 1) (by omega)
      grind
  refine ⟨rfl, hleft, hright, ?_, ⟨rfl, rfl⟩, ⟨rfl, rfl⟩⟩
  ext x
  rw [Set.mem_union, h.mem_content, hleft.mem_content, hright.mem_content]
  simp only [Leaf.highHalf, Leaf.lowHalf, Tree.highHalf, Tree.lowHalf]
  constructor
  · rintro ⟨i, hi, rfl⟩
    by_cases hid : i < d + 1
    · exact .inl ⟨i, hid, by grind⟩
    · obtain ⟨l, rfl⟩ : ∃ l, i = d + l + 1 := ⟨i - d - 1, by omega⟩
      exact .inr ⟨l, by omega, by grind⟩
  · rintro (⟨i, hi, rfl⟩ | ⟨i, hi, rfl⟩)
    · exact ⟨i, by omega, by grind⟩
    · exact ⟨d + i + 1, by omega, by grind⟩

/-! ### Merging two leaves -/

def joined {α : Type} (one two : Slots α) (m l : ℕ) : Slots α := fun j =>
  if j < m then one j else if j < m + l then two (j - m) else one j

/-- The first leaf with the first `l` pairs of the second behind its own. -/
def Leaf.join (one two : Leaf V) (m l : ℕ) : Leaf V :=
  ⟨joined one.keys two.keys m l, joined one.values two.values m l, one.key_low, one.key_high⟩

lemma Ordered.joined {one two : Slots ℤ} {l : ℕ} (h₁ : Ordered d one m) (h₂ : Ordered d two n)
    (hsep : ∀ i < m, ∀ j < n, one i < two j) (hl : l ≤ n) (hsum : m + l ≤ SIZE d) :
    Ordered d (joined one two m l) (m + l) := by
  refine ⟨hsum, ?_, ?_, ?_⟩
  all_goals simp only [Tree.joined]
  · intro i j hij hj
    have e₁ := h₁.lt i j hij
    have e₂ := hsep i
    have e₃ := h₂.lt (i - m) (j - m)
    grind
  · intro i hi
    have e₁ := h₁.valid i
    have e₂ := h₂.valid (i - m)
    grind
  · intro i hi hlt
    have e₁ := h₁.free i
    grind

lemma appendLeaf_returns (h₁ : Ordered d one.keys m) (h₂ : Ordered d two.keys n)
    (hsep : ∀ i < m, ∀ j < n, one.keys i < two.keys j) (hsum : m + n ≤ SIZE d)
    {rounds l size : ℕ} (hl : l ≤ n) (hr : rounds + l = SIZE d) (hs : size ≤ m + l) :
    Returns (appendLeaf d two rounds l size (one.join two m l)) fun r => r = one.join two m n := by
  induction rounds generalizing l size with
  | zero =>
    obtain rfl : l = n := by
      have := h₂.count
      omega
    rfl
  | succ rounds ih =>
    rw [appendLeaf]
    refine Ends.bind (load_returns (by omega)) ?_
    rintro _ rfl
    split_ifs with hfree
    · have hln : l = n := by
        by_contra hne
        have := h₂.valid l (by omega)
        omega
      rw [hln]
      rfl
    · have hlt : l < n := by
        by_contra hge
        exact hfree (h₂.free l (by omega) (by omega))
      have hord := h₁.joined h₂ hsep hl (by omega)
      refine Ends.bind (firstFree_returns hord (by omega) hs (by omega)) ?_
      rintro _ rfl
      have hkeys : Function.update (joined one.keys two.keys m l) (m + l) (two.keys l) =
          joined one.keys two.keys m (l + 1) := by
        funext j
        simp only [Function.update_apply, joined]
        grind
      have hvalues : Function.update (joined one.values two.values m l) (m + l) (two.values l) =
          joined one.values two.values m (l + 1) := by
        funext j
        simp only [Function.update_apply, joined]
        grind
      refine Ends.bind (p := fun r => r = ⟨joined one.keys two.keys m (l + 1),
        joined one.values two.values m l, one.key_low, one.key_high⟩) ?_ ?_
      · refine Ends.bind (store_returns (by omega)) ?_
        rintro _ rfl
        show (⟨_, _, _, _⟩ : Leaf V) = _
        rw [Leaf.join, hkeys]
      rintro _ rfl
      refine Ends.bind (load_returns (by omega)) ?_
      rintro _ rfl
      refine Ends.bind (p := fun r => r = one.join two m (l + 1)) ?_ ?_
      · refine Ends.bind (store_returns (by omega)) ?_
        rintro _ rfl
        show (⟨_, _, _, _⟩ : Leaf V) = _
        rw [hvalues]
        rfl
      rintro _ rfl
      exact ih (by omega) (by omega) (by omega)

lemma Leaf.Holds.join (h₁ : one.Holds d lo k m) (h₂ : two.Holds d k hi n) (hsum : m + n ≤ SIZE d)
    (hlo : lo ≤ k) (hhi : k ≤ hi) :
    (one.join two m n).Holds d lo hi (m + n) ∧
      (one.join two m n).content d = one.content d ∪ two.content d := by
  have hsep : ∀ i < m, ∀ j < n, one.keys i < two.keys j := by
    intro i hi j hj
    have e₁ := h₁.below i hi
    have e₂ := h₂.above j hj
    omega
  have hord : Ordered d (one.join two m n).keys (m + n) :=
    h₁.toOrdered.joined h₂.toOrdered hsep (Nat.le_refl n) hsum
  refine ⟨⟨hord, ?_, ?_⟩, ?_⟩
  · intro i hi
    have e₁ := h₁.above i
    have e₂ := h₂.above (i - m)
    simp only [Leaf.join, joined]
    grind
  · intro i hi
    have e₁ := h₁.below i
    have e₂ := h₂.below (i - m)
    simp only [Leaf.join, joined]
    grind
  · ext x
    rw [Set.mem_union, hord.mem_content, h₁.mem_content, h₂.mem_content]
    simp only [Leaf.join, joined]
    constructor
    · rintro ⟨i, hi, rfl⟩
      by_cases him : i < m
      · exact .inl ⟨i, him, by grind⟩
      · exact .inr ⟨i - m, by omega, by grind⟩
    · rintro (⟨i, hi, rfl⟩ | ⟨i, hi, rfl⟩)
      · exact ⟨i, by omega, by grind⟩
      · exact ⟨m + i, by omega, by grind⟩

lemma mergeLeaf_returns {parent : Node A} {Q : Node A → Prop} (h₁ : one.Holds d lo k m)
    (h₂ : two.Holds d k hi n) (hsum : m + n ≤ SIZE d)
    (hdrop : Returns (shiftDown d parent i) fun r => Q r.2) :
    Returns (mergeLeaf d one two i parent) fun r =>
      r.1 = (one.setRange one.key_low two.key_high).join two m n ∧ Q r.2 := by
  rw [mergeLeaf]
  have hzero : (one.setRange one.key_low two.key_high).join two m 0 =
      one.setRange one.key_low two.key_high := by
    have hj : ∀ {α : Type} (s t : Slots α), joined s t m 0 = s := by
      intro α s t
      funext j
      simp only [joined]
      grind
    simp only [Leaf.join, hj]
  have hsep : ∀ i < m, ∀ j < n, one.keys i < two.keys j := by
    intro i hi j hj
    have e₁ := h₁.below i hi
    have e₂ := h₂.above j hj
    omega
  have hone : Ordered d (one.setRange one.key_low two.key_high).keys m := h₁.toOrdered
  have happ := appendLeaf_returns hone h₂.toOrdered hsep hsum (Nat.zero_le _) (Nat.add_zero (SIZE d))
    (Nat.zero_le _)
  rw [hzero] at happ
  refine Ends.bind happ ?_
  rintro _ rfl
  refine Ends.bind hdrop ?_
  rintro ⟨_, parent'⟩ hQ
  exact ⟨rfl, hQ⟩

/-! ### Effects -/

/-- What an operation does to the stored pairs, and what it answers. -/
abbrev Meaning (V : Type) := Set (ℤ × V) → Option V → Set (ℤ × V) → Prop

def Inserts (key : ℤ) (value : V) : Meaning V := fun s r s' =>
  (∃ v, (key, v) ∈ s ∧ r = some v ∧ s' = s) ∨
    (∀ v, (key, v) ∉ s) ∧ r = none ∧ s' = insert (key, value) s

/-- The meaning depends on the pairs of the key only. -/
def Local (key : ℤ) (M : Meaning V) : Prop :=
  ∀ s r s' u, (∀ x ∈ u, x.1 ≠ key) → M s r s' → M (s ∪ u) r (s' ∪ u)

/-- The slot of a key that the leaf holds. -/
lemma Route.slot (h : Ordered d leaf.keys n) (hr : Route leaf.keys n key i) (hj : j < n)
    (hk : leaf.keys j = key) : j = i := by
  rcases Nat.lt_trichotomy j i with hlt | heq | hlt
  · have := hr.before j hlt
    omega
  · exact heq
  · have e₁ := hr.behind (by omega)
    have e₂ := h.lt i j hlt hj
    omega

end ObjectCache.Btree.Tree
