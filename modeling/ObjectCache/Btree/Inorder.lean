import ObjectCache.Btree.Subtrees
import Mathlib.Data.List.Range

/-! The order of what is below a node, and the four structural steps of the tree. -/

namespace ObjectCache.Btree.Tree

open Lib

variable {A B V : Type} {β : Type} {d n m i j : ℕ} {lo hi k : ℤ}

/-- The pairs of a leaf in the order of its slots. -/
def Leaf.list (d : ℕ) (leaf : Leaf V) : List (ℤ × V) :=
  ((List.range (SIZE d)).filter fun i => leaf.keys i ≠ SENTINEL).map fun i => (leaf.keys i, leaf.values i)

/-- What is below a node from left to right: what `C` says of each child, and `S` of the separator
behind it. -/
def Node.inorder (d : ℕ) (C : A → List β) (S : ℤ → List β) (node : Node A) : List β :=
  (List.range (SIZE d + 1)).flatMap fun i =>
    (node.ptrs i).elim [] C ++ if i < SIZE d ∧ node.keys i ≠ SENTINEL then S (node.keys i) else []

/-- The pairs of the leaves below their parent. -/
def Node.leafPairs (d : ℕ) (parent : Node (Leaf V)) : List (ℤ × V) :=
  parent.inorder d (Leaf.list d) fun _ => []

/-- The child pointers and the separators of a node. -/
def Node.entries (d : ℕ) (node : Node A) : List (A ⊕ ℤ) :=
  node.inorder d (fun p => [.inl p]) fun k => [.inr k]

/-- The child pointers and the separators of the nodes below their parent, and of the parent. -/
def Node.nodeEntries (d : ℕ) (parent : Node (Node A)) : List (A ⊕ ℤ) :=
  parent.inorder d (Node.entries d) fun k => [.inr k]

/-! ### Lists over the slots -/

section Lists

variable {f g : ℕ → List β}

lemma flatMap_range_add (f : ℕ → List β) (m n : ℕ) :
    (List.range (m + n)).flatMap f = (List.range m).flatMap f ++ (List.range n).flatMap fun j => f (m + j) := by
  rw [List.range_add, List.flatMap_append, List.flatMap_map]

lemma flatMap_range_congr (h : ∀ j < n, f j = g j) : (List.range n).flatMap f = (List.range n).flatMap g := by
  refine List.flatMap_congr fun j hj => ?_
  exact h j (List.mem_range.mp hj)

lemma flatMap_range_nil (h : ∀ j < n, f j = []) : (List.range n).flatMap f = [] := by
  rw [List.flatMap_eq_nil_iff]
  intro j hj
  exact h j (List.mem_range.mp hj)

/-- One entry that is spread over two slots. -/
lemma flatMap_range_spread (hi : i < n) (hbefore : ∀ j < i, g j = f j) (hat : g i ++ g (i + 1) = f i)
    (hbehind : ∀ j, i < j → j < n → g (j + 1) = f j) :
    (List.range (n + 1)).flatMap g = (List.range n).flatMap f := by
  obtain ⟨l, rfl⟩ : ∃ l, n = i + 1 + l := ⟨n - (i + 1), by omega⟩
  have hrest : (List.range l).flatMap (fun j => g (i + 2 + j)) =
      (List.range l).flatMap fun j => f (i + 1 + j) := by
    refine flatMap_range_congr fun j hj => ?_
    rw [← hbehind (i + 1 + j) (by omega) (by omega)]
    congr 1
    omega
  calc (List.range (i + 1 + l + 1)).flatMap g
      = (List.range (i + 2 + l)).flatMap g := by rw [Nat.add_right_comm]
    _ = (List.range i).flatMap f ++ (g i ++ g (i + 1)) ++ (List.range l).flatMap fun j => g (i + 2 + j) := by
        rw [flatMap_range_add, List.range_succ, List.range_succ, List.flatMap_append, List.flatMap_append,
          List.flatMap_singleton, List.flatMap_singleton, flatMap_range_congr hbefore, List.append_assoc _ (g i)]
    _ = (List.range (i + 1 + l)).flatMap f := by
        rw [hat, hrest, flatMap_range_add, List.range_succ, List.flatMap_append, List.flatMap_singleton]

end Lists

/-! ### The entries of one slot -/

section Slot

variable {C : A → List β} {S : ℤ → List β} {node one two r : Node A}

/-- What a node of `n` separators has at a slot. -/
def Node.slot (C : A → List β) (S : ℤ → List β) (n : ℕ) (node : Node A) (j : ℕ) : List β :=
  (node.ptrs j).elim [] C ++ if j < n then S (node.keys j) else []

lemma Ordered.inorder (h : Ordered d node.keys n) (hnull : ∀ j, n < j → j ≤ SIZE d → node.ptrs j = none) :
    node.inorder d C S = (List.range (n + 1)).flatMap (node.slot C S n) := by
  have hcount := h.count
  rw [Node.inorder, show SIZE d + 1 = n + 1 + (SIZE d - n) by omega, flatMap_range_add]
  rw [flatMap_range_nil (n := SIZE d - n), List.append_nil]
  · refine flatMap_range_congr fun j hj => ?_
    rw [Node.slot]
    congr 1
    by_cases hjn : j < n
    · have := h.valid j hjn
      rw [if_pos hjn, if_pos ⟨by omega, by omega⟩]
    · rw [if_neg hjn, if_neg]
      rintro ⟨hlt, hne⟩
      exact hne (h.free j (by omega) hlt)
  · intro j hj
    rw [hnull _ (by omega) (by omega), if_neg]
    · rfl
    · rintro ⟨hlt, hne⟩
      exact hne (h.free _ (by omega) hlt)

/-- A node that holds the slots of two nodes, with a separator between them. -/
lemma flatMap_slot_join (hptr₁ : ∀ j ≤ m, r.ptrs j = one.ptrs j) (hkey₁ : ∀ j < m, r.keys j = one.keys j)
    (hk : r.keys m = k) (hptr₂ : ∀ j ≤ n, r.ptrs (m + 1 + j) = two.ptrs j)
    (hkey₂ : ∀ j < n, r.keys (m + 1 + j) = two.keys j) :
    (List.range (m + n + 1 + 1)).flatMap (r.slot C S (m + n + 1)) =
      (List.range (m + 1)).flatMap (one.slot C S m) ++
        (S k ++ (List.range (n + 1)).flatMap (two.slot C S n)) := by
  rw [show m + n + 1 + 1 = m + 1 + (n + 1) by omega, flatMap_range_add]
  have hleft : (List.range (m + 1)).flatMap (r.slot C S (m + n + 1)) =
      (List.range (m + 1)).flatMap (one.slot C S m) ++ S k := by
    rw [List.range_succ, List.flatMap_append, List.flatMap_append, List.append_assoc]
    congr 1
    · refine flatMap_range_congr fun j hj => ?_
      simp only [Node.slot]
      rw [hptr₁ j (by omega), hkey₁ j hj, if_pos (by omega), if_pos hj]
    · simp only [List.flatMap_singleton, Node.slot]
      rw [hptr₁ m (Nat.le_refl m), hk, if_pos (by omega), if_neg (Nat.lt_irrefl m), List.append_nil]
  have hright : (List.range (n + 1)).flatMap (fun j => r.slot C S (m + n + 1) (m + 1 + j)) =
      (List.range (n + 1)).flatMap (two.slot C S n) := by
    refine flatMap_range_congr fun j hj => ?_
    simp only [Node.slot]
    rw [hptr₂ j (by omega)]
    congr 1
    by_cases hjn : j < n
    · rw [if_pos hjn, if_pos (by omega), hkey₂ j hjn]
    · rw [if_neg hjn, if_neg (by omega)]
  rw [hleft, hright, List.append_assoc]

/-- A child and a separator that are entered: `C` says of the two children and the separator what it
says of the child that was there. -/
lemma flatMap_slot_enter {a b c : A} (hi : i ≤ n) (hn : n < SIZE d) (hr : Node.Entered d i k a b node r)
    (hc : node.ptrs i = some c) (hC : C c = C a ++ (S k ++ C b)) :
    (List.range (n + 1 + 1)).flatMap (r.slot C S (n + 1)) =
      (List.range (n + 1)).flatMap (node.slot C S n) := by
  refine flatMap_range_spread (i := i) (by omega) ?_ ?_ ?_
  · intro j hj
    simp only [Node.slot]
    rw [hr.ptrs j (by omega), hr.keys j (by omega), if_pos hj, if_pos hj, if_pos (by omega), if_pos (by omega)]
  · simp only [Node.slot]
    rw [hr.ptrs i (by omega), hr.keys i (by omega), hr.ptrs (i + 1) (by omega), hc]
    simp only [Nat.lt_irrefl, if_false, if_true, Nat.not_succ_lt_self, Nat.succ_ne_self, Option.elim_some,
      Nat.add_lt_add_iff_right]
    rw [if_pos (by omega), hC]
    by_cases hin : i < n
    · rw [if_pos hin, if_pos hin, hr.keys (i + 1) (by omega), if_neg (by omega), if_neg (by omega),
        Nat.add_sub_cancel]
      simp only [List.append_assoc]
    · rw [if_neg hin, if_neg hin]
      simp only [List.append_assoc]
  · intro j hij hj
    simp only [Node.slot]
    rw [hr.ptrs (j + 1) (by omega), if_neg (by omega), if_neg (by omega), if_neg (by omega),
      Nat.add_sub_cancel]
    congr 1
    by_cases hjn : j < n
    · rw [if_pos hjn, if_pos (by omega), hr.keys (j + 1) (by omega), if_neg (by omega), if_neg (by omega),
        Nat.add_sub_cancel]
    · rw [if_neg hjn, if_neg (by omega)]

/-- Two children and the separator between them that give way to one child. -/
lemma flatMap_slot_drop {a b c : A} (hi : i < n) (hn : n ≤ SIZE d) (hr : node.Dropped d i r)
    (ha : node.ptrs i = some a) (hb : node.ptrs (i + 1) = some b)
    (hC : C c = C a ++ (S (node.keys i) ++ C b)) :
    (List.range n).flatMap ((r.set i c).slot C S (n - 1)) =
      (List.range (n + 1)).flatMap (node.slot C S n) := by
  refine (flatMap_range_spread (i := i) (by omega) ?_ ?_ ?_).symm
  · intro j hj
    simp only [Node.slot]
    rw [set_other (by omega), hr.ptrs j (by omega) (by omega), if_pos hj, if_pos (by omega), if_pos (by omega)]
    show _ = _ ++ S (r.keys j)
    rw [hr.keys j (by omega), if_pos hj]
  · simp only [Node.slot]
    rw [set_self, ha, hb, if_pos hi]
    simp only [Option.elim_some]
    rw [hC]
    simp only [List.append_assoc]
    congr 3
    by_cases hin : i + 1 < n
    · rw [if_pos hin, if_pos (by omega)]
      show _ = S (r.keys i)
      rw [hr.keys i (by omega), if_neg (by omega), if_pos (by omega)]
    · rw [if_neg hin, if_neg (by omega)]
  · intro j hij hj
    have hptr : (r.set i c).ptrs j = node.ptrs (j + 1) := by
      rw [set_other (by omega), hr.ptrs j (by omega) (by omega), if_neg (by omega), if_pos (by omega)]
    simp only [Node.slot]
    rw [hptr]
    congr 1
    by_cases hjn : j + 1 < n
    · rw [if_pos hjn, if_pos (by omega)]
      show _ = S (r.keys j)
      rw [hr.keys j (by omega), if_neg (by omega), if_pos (by omega)]
    · rw [if_neg hjn, if_neg (by omega)]

end Slot

/-! ### Leaves -/

section Leaves

variable {leaf one two : Leaf V}

lemma Ordered.list (h : Ordered d leaf.keys n) :
    leaf.list d = (List.range n).map fun i => (leaf.keys i, leaf.values i) := by
  have hcount := h.count
  rw [Leaf.list, show SIZE d = n + (SIZE d - n) by omega, List.range_add, List.filter_append]
  have hleft : (List.range n).filter (fun i => leaf.keys i ≠ SENTINEL) = List.range n := by
    rw [List.filter_eq_self]
    intro i hi
    have := h.valid i (List.mem_range.mp hi)
    exact decide_eq_true (by omega)
  have hright : ((List.range (SIZE d - n)).map (n + ·)).filter (fun i => leaf.keys i ≠ SENTINEL) = [] := by
    rw [List.filter_eq_nil_iff]
    intro i hi
    obtain ⟨j, hj, rfl⟩ := List.mem_map.mp hi
    have hlt := List.mem_range.mp hj
    simp [h.free (n + j) (by omega) (by omega)]
  rw [hleft, hright, List.append_nil]

lemma list_append {leaf' : Leaf V} (h : Ordered d leaf.keys (m + n)) (h₁ : Ordered d one.keys m)
    (h₂ : Ordered d leaf'.keys n) (hkey₁ : ∀ j < m, leaf.keys j = one.keys j)
    (hvalue₁ : ∀ j < m, leaf.values j = one.values j) (hkey₂ : ∀ j < n, leaf.keys (m + j) = leaf'.keys j)
    (hvalue₂ : ∀ j < n, leaf.values (m + j) = leaf'.values j) :
    leaf.list d = one.list d ++ leaf'.list d := by
  rw [h.list, h₁.list, h₂.list, List.range_add, List.map_append, List.map_map]
  congr 1
  · refine List.map_congr_left fun j hj => ?_
    have hlt := List.mem_range.mp hj
    rw [hkey₁ j hlt, hvalue₁ j hlt]
  · refine List.map_congr_left fun j hj => ?_
    have hlt := List.mem_range.mp hj
    show (leaf.keys (m + j), leaf.values (m + j)) = _
    rw [hkey₂ j hlt, hvalue₂ j hlt]

lemma list_halve [IntCast V] (h : leaf.Holds d lo hi (SIZE d)) :
    leaf.list d = (leaf.lowHalf d).list d ++ (leaf.highHalf d).list d := by
  have hsize : SIZE d = d + 1 + d := by rw [SIZE]; omega
  obtain ⟨r, -, rfl, hr⟩ := returns_iff.mp (Leaf.halve_returns.and h.halve)
  have hall : Ordered d leaf.keys (d + 1 + d) := hsize ▸ h.toOrdered
  refine list_append hall hr.left.toOrdered hr.right.toOrdered ?_ ?_ ?_ ?_
  all_goals intro j hj; simp only [Leaf.lowHalf, Leaf.highHalf, Tree.lowHalf, Tree.highHalf]
  · rw [if_neg (by omega)]
  · rw [if_neg (by omega)]
  · rw [if_pos hj, Nat.add_right_comm]
  · rw [if_pos hj, Nat.add_right_comm]

lemma list_join (h₁ : one.Holds d lo k m) (h₂ : two.Holds d k hi n) (hsum : m + n ≤ SIZE d) (hlo : lo ≤ k)
    (hhi : k ≤ hi) : (one.join two m n).list d = one.list d ++ two.list d := by
  refine list_append (h₁.join h₂ hsum hlo hhi).1.toOrdered h₁.toOrdered h₂.toOrdered ?_ ?_ ?_ ?_
  all_goals intro j hj; simp only [Leaf.join, joined]
  · rw [if_pos hj]
  · rw [if_pos hj]
  · rw [if_neg (by omega), if_pos (by omega), Nat.add_sub_cancel_left]
  · rw [if_neg (by omega), if_pos (by omega), Nat.add_sub_cancel_left]

end Leaves

/-! ### Nodes -/

section Nodes

variable {P : ℤ → ℤ → A → Prop} {C : A → List β} {S : ℤ → List β} {node one two : Node A}

lemma Holds.inorder (h : Holds d P lo hi n node) :
    node.inorder d C S = (List.range (n + 1)).flatMap (node.slot C S n) :=
  h.toOrdered.inorder h.null

lemma inorder_halve (h : Holds d P lo hi (SIZE d) node) :
    node.inorder d C S =
      (node.lowHalf d).inorder d C S ++ (S (node.keys d) ++ (node.highHalf d).inorder d C S) := by
  have hsize : SIZE d = d + d + 1 := by rw [SIZE]; omega
  obtain ⟨r, -, rfl, -, hlow, hhigh, -⟩ := returns_iff.mp
    ((halve_returns (A := A)).and (h.halve (C := fun _ : A => (∅ : Set ℤ))))
  rw [h.inorder, hlow.inorder, hhigh.inorder, hsize]
  refine flatMap_slot_join ?_ ?_ rfl ?_ ?_
  all_goals intro j hj; simp only [Node.lowHalf, Node.highHalf, Tree.lowHalf, Tree.highHalf]
  · rw [if_neg (by omega)]
  · rw [if_neg (by omega)]
  · rw [if_pos (by omega), Nat.add_right_comm]
  · rw [if_pos hj, Nat.add_right_comm]

lemma inorder_join (h₁ : Holds d P lo k m one) (h₂ : Holds d P k hi n two) (hsum : m + n + 1 ≤ SIZE d)
    (hlo : lo < k) (hhi : k < hi) (hk : k < SENTINEL) :
    Node.inorder d C S ⟨joinedKeys one.keys two.keys k m n, joinedPtrs one.ptrs two.ptrs m n⟩ =
      one.inorder d C S ++ (S k ++ two.inorder d C S) := by
  have hjoin := (h₁.join (C := fun _ : A => (∅ : Set ℤ)) h₂ hsum hlo hhi hk).1
  rw [hjoin.inorder, h₁.inorder, h₂.inorder]
  refine flatMap_slot_join ?_ ?_ ?_ ?_ ?_
  · intro j hj
    simp only [joinedPtrs]
    rw [if_pos hj]
  · intro j hj
    simp only [joinedKeys]
    rw [if_pos hj]
  · simp only [joinedKeys]
    rw [if_neg (Nat.lt_irrefl m), if_true]
  · intro j hj
    simp only [joinedPtrs]
    rw [if_neg (by omega), if_pos (by omega)]
    congr 1
    omega
  · intro j hj
    simp only [joinedKeys]
    rw [if_neg (by omega), if_neg (by omega), if_pos (by omega)]
    congr 1
    omega

/-- A child that is replaced by two. -/
lemma Holds.inorder_enter {a b c : A} (h : Holds d P lo hi n node) (hi' : i ≤ n) (hn : n < SIZE d)
    (hk : k < SENTINEL) (hlow : lowOf lo node.keys i < k) (hhigh : k < highOf hi node.keys n i)
    (ha : P (lowOf lo node.keys i) k a) (hb : P k (highOf hi node.keys n i) b) (hc : node.ptrs i = some c)
    (hC : C c = C a ++ (S k ++ C b)) :
    Returns ((node.set i a).enter d k b) fun r => Holds d P lo hi (n + 1) r ∧
      r.inorder d C S = node.inorder d C S ∧ Node.Entered d i k a b node r := by
  have hlo := Int.lt_of_le_of_lt (h.low_le hi') hlow
  have hhi := Int.lt_of_lt_of_le hhigh h.le_high
  have henter := h.enter (C := fun _ : A => (∅ : Set ℤ)) (fun _ _ _ _ _ hP => hP) hn hi' hk hlow hhigh hlo hhi
    ha hb
  have hslots := h.toOrdered.enter (a := a) (b := b) hn hk (h.route hi' hlow (Int.le_of_lt hhigh))
  refine (henter.and hslots).mono ?_
  rintro r ⟨⟨hr, -⟩, hent⟩
  refine ⟨hr, ?_, hent⟩
  rw [hr.inorder, h.inorder]
  exact flatMap_slot_enter hi' hn hent hc hC

/-- Two children that are replaced by one. -/
lemma Holds.inorder_drop {a b c : A} (h : Holds d P lo hi n node) (hi' : i < n)
    (hP : P (lowOf lo node.keys i) (highOf hi node.keys n (i + 1)) c) (ha : node.ptrs i = some a)
    (hb : node.ptrs (i + 1) = some b) (hC : C c = C a ++ (S (node.keys i) ++ C b)) :
    Returns (shiftDown d node i) fun r => r.1 = node.keys i ∧ Holds d P lo hi (n - 1) (r.2.set i c) ∧
      (r.2.set i c).inorder d C S = node.inorder d C S := by
  have hcount := h.count
  have hdrop := h.drop (C := fun _ : A => (∅ : Set ℤ)) (fun _ _ _ _ _ _ hP => hP) hi' hP
  have hslots : Returns (shiftDown d node i) fun r => r.1 = node.keys i ∧ node.Dropped d i r.2 :=
    shiftDown_slots (by omega)
  refine (hdrop.and hslots).mono ?_
  rintro ⟨k, r⟩ ⟨⟨hk, hr, -⟩, -, hdropped⟩
  refine ⟨hk, hr, ?_⟩
  rw [hr.inorder, h.inorder, Nat.sub_add_cancel (by omega)]
  exact flatMap_slot_drop hi' hcount hdropped ha hb hC

end Nodes

/-! ### The steps -/

/-- A leaf whose fences are the bounds. -/
def Leaf.Fenced (d : ℕ) (lo hi : ℤ) (leaf : Leaf V) : Prop :=
  leaf.key_low = lo ∧ leaf.key_high = hi ∧ ∃ n, leaf.Holds d lo hi n

def Node.Fenced (P : ℤ → ℤ → A → Prop) (d : ℕ) (lo hi : ℤ) (node : Node A) : Prop := ∃ n, Holds d P lo hi n node

/-- `merge_node` with its swap. -/
def mergeNodes (d : ℕ) (node_one : Node A) (bucket_one : ℤ) (node_two : Node A) (bucket_two : ℤ)
    (parent : Node B) : Except Fault (Node A × Node B) :=
  if bucket_one ≠ 0 then mergeNode d node_two node_one bucket_two parent
  else mergeNode d node_one node_two bucket_one parent

/-- `merge_leaf` with its swap. -/
def mergeLeaves (d : ℕ) (leaf_one : Leaf V) (bucket_one : ℤ) (leaf_two : Leaf V) (bucket_two : ℤ)
    (parent : Node B) : Except Fault (Leaf V × Node B) :=
  if bucket_one ≠ 0 then mergeLeaf d leaf_two leaf_one bucket_two parent
  else mergeLeaf d leaf_one leaf_two bucket_one parent

/-- The buckets that the callers pass: the right neighbour of bucket 0, the left one of any other. -/
def Neighbours (n bucket_one bucket_two : ℕ) : Prop :=
  bucket_one ≤ n ∧ bucket_two ≤ n ∧ bucket_two = if bucket_one = 0 then 1 else bucket_one - 1

/-- The leaf at slot `i` is split and the separator entered. -/
def SplitsLeaf [IntCast V] (d : ℕ) (lo hi : ℤ) (n i : ℕ) (parent : Node (Leaf V)) (leaf : Leaf V) : Prop :=
  Returns (leaf.halve d >>= fun s => (parent.set i s.2.1).enter d s.1 s.2.2) fun r =>
    Holds d (Leaf.Fenced d) lo hi (n + 1) r ∧ r.leafPairs d = parent.leafPairs d ∧
      ∃ one two, r.ptrs i = some one ∧ r.ptrs (i + 1) = some two ∧
        one.key_low = leaf.key_low ∧ one.key_high = two.key_low ∧ two.key_high = leaf.key_high

def SplitsNode (P : ℤ → ℤ → A → Prop) (d : ℕ) (lo hi : ℤ) (n i : ℕ) (parent : Node (Node A))
    (node : Node A) : Prop :=
  Returns (node.halve d >>= fun s => (parent.set i s.2.1).enter d s.1 s.2.2) fun r =>
    Holds d (Node.Fenced P d) lo hi (n + 1) r ∧ r.nodeEntries d = parent.nodeEntries d

/-- The two leaves become one, at the lower of their buckets. -/
def MergesLeaves (d : ℕ) (lo hi : ℤ) (n bucket_one bucket_two : ℕ) (parent : Node (Leaf V))
    (leaf_one leaf_two : Leaf V) : Prop :=
  Returns (mergeLeaves d leaf_one bucket_one leaf_two bucket_two parent) fun r =>
    Holds d (Leaf.Fenced d) lo hi (n - 1) (r.2.set (min bucket_one bucket_two) r.1) ∧
      (r.2.set (min bucket_one bucket_two) r.1).leafPairs d = parent.leafPairs d

def MergesNodes (P : ℤ → ℤ → A → Prop) (d : ℕ) (lo hi : ℤ) (n bucket_one bucket_two : ℕ)
    (parent : Node (Node A)) (node_one node_two : Node A) : Prop :=
  Returns (mergeNodes d node_one bucket_one node_two bucket_two parent) fun r =>
    Holds d (Node.Fenced P d) lo hi (n - 1) (r.2.set (min bucket_one bucket_two) r.1) ∧
      (r.2.set (min bucket_one bucket_two) r.1).nodeEntries d = parent.nodeEntries d

section Steps

variable {P : ℤ → ℤ → A → Prop}

lemma Ordered.eq_size {keys : Slots ℤ} (h : Ordered d keys n) (hfull : keys (SIZE d - 1) ≠ SENTINEL) :
    n = SIZE d := by
  have hsize := pos_size (d := d)
  have hcount := h.count
  by_contra hne
  exact hfull (h.free (SIZE d - 1) (by omega) (by omega))

lemma Ordered.lt_size {keys : Slots ℤ} (h : Ordered d keys n) (hroom : keys (SIZE d - 1) = SENTINEL) :
    n < SIZE d := by
  have hsize := pos_size (d := d)
  have hcount := h.count
  by_contra hge
  have hvalid := h.valid (SIZE d - 1) (by omega)
  omega

lemma Ordered.le_of_free {keys : Slots ℤ} (h : Ordered d keys n) (hj : keys j = SENTINEL) : n ≤ j := by
  by_contra hlt
  have hvalid := h.valid j (by omega)
  omega

lemma splitsLeaf [IntCast V] {parent : Node (Leaf V)} {leaf : Leaf V} (hd : 1 ≤ d)
    (h : Holds d (Leaf.Fenced d) lo hi n parent) (hn : n < SIZE d) (hi' : i ≤ n)
    (hleaf : parent.ptrs i = some leaf) (hfull : leaf.keys (SIZE d - 1) ≠ SENTINEL) :
    SplitsLeaf d lo hi n i parent leaf := by
  have hsize : SIZE d = d * 2 + 1 := rfl
  obtain ⟨hlow, hhigh, m, hm⟩ := h.child_of hi' hleaf
  obtain rfl := hm.toOrdered.eq_size hfull
  refine Ends.bind (Leaf.halve_returns.and hm.halve) ?_
  rintro r ⟨rfl, hr⟩
  dsimp only
  have habove := hm.above d (by omega)
  have hbelow := Int.lt_of_lt_of_le (hm.lt d (d + 1) (by omega) (by omega)) (hm.below (d + 1) (by omega))
  have henter := h.inorder_enter (C := Leaf.list d) (S := fun _ => []) hi' hn (hm.valid d (by omega)) habove
    hbelow ⟨hr.left_range.1.trans hlow, hr.left_range.2, d + 1, hr.left⟩
    ⟨hr.right_range.1, hr.right_range.2.trans hhigh, d, hr.right⟩ hleaf (list_halve hm)
  refine henter.mono ?_
  rintro r' ⟨hholds, hsame, hent⟩
  refine ⟨hholds, hsame, leaf.lowHalf d, leaf.highHalf d, ?_, ?_, rfl, rfl, rfl⟩
  · rw [hent.ptrs i (by omega), if_neg (Nat.lt_irrefl i), if_pos rfl]
  · rw [hent.ptrs (i + 1) (by omega), if_neg (by omega), if_neg (by omega), if_pos rfl]

lemma splitsNode {parent : Node (Node A)} {node : Node A} (h : Holds d (Node.Fenced P d) lo hi n parent)
    (hn : n < SIZE d) (hi' : i ≤ n) (hnode : parent.ptrs i = some node)
    (hfull : node.keys (SIZE d - 1) ≠ SENTINEL) : SplitsNode P d lo hi n i parent node := by
  have hsize : SIZE d = d * 2 + 1 := rfl
  obtain ⟨m, hm⟩ := h.child_of hi' hnode
  obtain rfl := hm.toOrdered.eq_size hfull
  refine Ends.bind (halve_returns.and (hm.halve (C := fun _ : A => (∅ : Set ℤ)))) ?_
  rintro r ⟨rfl, -, hleft, hright, -⟩
  dsimp only at *
  have henter := h.inorder_enter (C := Node.entries d) (S := fun k => [.inr k]) hi' hn (hm.valid d (by omega))
    (hm.above d (by omega)) (hm.below d (by omega)) ⟨d, hleft⟩ ⟨d, hright⟩ hnode (inorder_halve hm)
  refine henter.mono ?_
  rintro r' ⟨hholds, hsame, -⟩
  exact ⟨hholds, hsame⟩

lemma Holds.separator_bounds {node : Node A} (h : Holds d P lo hi n node) (hj : j < n) :
    lowOf lo node.keys j < node.keys j ∧ node.keys j < highOf hi node.keys n (j + 1) := by
  have hlt : lo < hi := Int.lt_trans (h.above j hj) (h.below j hj)
  have hlow := h.low_lt_high hlt (i := j) (by omega)
  rw [highOf, if_pos hj] at hlow
  exact ⟨hlow, h.low_lt_high hlt (i := j + 1) (by omega)⟩

/-- The leaves at `j` and `j + 1` become one. -/
lemma Holds.inorder_mergeLeaf {parent : Node (Leaf V)} {one two : Leaf V}
    (h : Holds d (Leaf.Fenced d) lo hi n parent) (hj : j < n) (hone : parent.ptrs j = some one)
    (htwo : parent.ptrs (j + 1) = some two)
    (hroom : ∀ k l, Ordered d one.keys k → Ordered d two.keys l → k + l ≤ SIZE d) :
    Returns (Tree.mergeLeaf d one two j parent) fun r => Holds d (Leaf.Fenced d) lo hi (n - 1) (r.2.set j r.1) ∧
      (r.2.set j r.1).leafPairs d = parent.leafPairs d := by
  obtain ⟨hlow, -, k, hk⟩ := h.child_of hj.le hone
  obtain ⟨-, hhigh, l, hl⟩ := h.child_of hj htwo
  obtain ⟨hlo, hhi⟩ := h.separator_bounds hj
  rw [highOf, if_pos hj] at hk
  have hl' : two.Holds d (parent.keys j) (highOf hi parent.keys n (j + 1)) l := hl
  have hsum := hroom k l hk.toOrdered hl.toOrdered
  have hk' : (one.setRange one.key_low two.key_high).Holds d (lowOf lo parent.keys j) (parent.keys j) k :=
    ⟨hk.toOrdered, hk.above, hk.below⟩
  have hjoin := (hk'.join hl' hsum hlo.le hhi.le).1
  have hlist := list_join hk' hl' hsum hlo.le hhi.le
  have hdrop := h.inorder_drop (C := Leaf.list d) (S := fun _ => [])
    (c := (one.setRange one.key_low two.key_high).join two k l) hj ⟨hlow, hhigh, _, hjoin⟩ hone htwo hlist
  refine (mergeLeaf_returns (Q := fun p => Holds d (Leaf.Fenced d) lo hi (n - 1) (p.set j _) ∧
    (p.set j _).leafPairs d = parent.leafPairs d) hk hl' hsum (hdrop.mono fun r hr => hr.2)).mono ?_
  rintro ⟨one', parent'⟩ ⟨rfl, hr⟩
  exact hr

/-- The nodes at `j` and `j + 1` become one. -/
lemma Holds.inorder_mergeNode {parent : Node (Node A)} {one two : Node A}
    (h : Holds d (Node.Fenced P d) lo hi n parent) (hj : j < n) (hone : parent.ptrs j = some one)
    (htwo : parent.ptrs (j + 1) = some two)
    (hroom : ∀ k l, Ordered d one.keys k → Ordered d two.keys l → k + l + 1 ≤ SIZE d) :
    Returns (Tree.mergeNode d one two j parent) fun r => Holds d (Node.Fenced P d) lo hi (n - 1) (r.2.set j r.1) ∧
      (r.2.set j r.1).nodeEntries d = parent.nodeEntries d := by
  obtain ⟨k, hk⟩ := h.child_of hj.le hone
  obtain ⟨l, hl⟩ := h.child_of hj htwo
  obtain ⟨hlo, hhi⟩ := h.separator_bounds hj
  rw [highOf, if_pos hj] at hk
  have hl' : Holds d P (parent.keys j) (highOf hi parent.keys n (j + 1)) l two := hl
  have hsum := hroom k l hk.toOrdered hl.toOrdered
  have hjoin := (hk.join (C := fun _ : A => (∅ : Set ℤ)) hl' hsum hlo hhi (h.valid j hj)).1
  have hdrop := h.inorder_drop (C := Node.entries d) (S := fun k => [.inr k]) hj ⟨_, hjoin⟩ hone htwo
    (inorder_join hk hl' hsum hlo hhi (h.valid j hj))
  refine (mergeNode_returns (Q := fun p => Holds d (Node.Fenced P d) lo hi (n - 1) (p.set j _) ∧
    (p.set j _).nodeEntries d = parent.nodeEntries d) hk.toOrdered hl.toOrdered hsum hdrop).mono ?_
  rintro ⟨one', parent'⟩ ⟨rfl, hr⟩
  exact hr

lemma mergesLeaves {parent : Node (Leaf V)} {one two : Leaf V} {bucket_one bucket_two : ℕ} (hd : 1 ≤ d)
    (h : Holds d (Leaf.Fenced d) lo hi n parent) (hb : Neighbours n bucket_one bucket_two)
    (hone : parent.ptrs bucket_one = some one) (htwo : parent.ptrs bucket_two = some two)
    (hkey : one.keys 1 = SENTINEL) (hroom : two.keys (SIZE d - 1) = SENTINEL) :
    MergesLeaves d lo hi n bucket_one bucket_two parent one two := by
  obtain ⟨h₁, h₂, hb⟩ := hb
  have hsum : ∀ k l, Ordered d one.keys k → Ordered d two.keys l → k + l ≤ SIZE d := by
    intro k l hk hl
    have e₁ := hk.le_of_free hkey
    have e₂ := hl.lt_size hroom
    omega
  rw [MergesLeaves, mergeLeaves]
  split_ifs at hb with hzero
  · subst hzero hb
    rw [if_neg (by omega)]
    exact h.inorder_mergeLeaf (by omega) hone htwo hsum
  · obtain ⟨j, rfl⟩ : ∃ j, bucket_one = j + 1 := ⟨bucket_one - 1, by omega⟩
    obtain rfl : bucket_two = j := hb
    rw [if_pos (by omega), Nat.min_eq_right (by omega)]
    exact h.inorder_mergeLeaf (by omega) htwo hone fun k l hk hl => (Nat.add_comm k l).trans_le (hsum l k hl hk)

lemma mergesNodes {parent : Node (Node A)} {one two : Node A} {bucket_one bucket_two : ℕ}
    (h : Holds d (Node.Fenced P d) lo hi n parent) (hb : Neighbours n bucket_one bucket_two)
    (hone : parent.ptrs bucket_one = some one) (htwo : parent.ptrs bucket_two = some two)
    (hkey : one.keys 0 = SENTINEL) (hroom : two.keys (SIZE d - 1) = SENTINEL) :
    MergesNodes P d lo hi n bucket_one bucket_two parent one two := by
  obtain ⟨h₁, h₂, hb⟩ := hb
  have hsum : ∀ k l, Ordered d one.keys k → Ordered d two.keys l → k + l + 1 ≤ SIZE d := by
    intro k l hk hl
    have e₁ := hk.le_of_free hkey
    have e₂ := hl.lt_size hroom
    omega
  rw [MergesNodes, mergeNodes]
  split_ifs at hb with hzero
  · subst hzero hb
    rw [if_neg (by omega)]
    exact h.inorder_mergeNode (by omega) hone htwo hsum
  · obtain ⟨j, rfl⟩ : ∃ j, bucket_one = j + 1 := ⟨bucket_one - 1, by omega⟩
    obtain rfl : bucket_two = j := hb
    rw [if_pos (by omega), Nat.min_eq_right (by omega)]
    refine h.inorder_mergeNode (by omega) htwo hone fun k l hk hl => ?_
    have hle := hsum l k hl hk
    omega

/-- Splits of full leaves and full nodes and merges of neighbours keep what is below the parent in its order,
the keys in order with the free slots behind them, and the separators between the children. -/
theorem structural_steps [IntCast V] (hd : 1 ≤ d) (P : ℤ → ℤ → A → Prop) :
    (∀ (lo hi : ℤ) (n i : ℕ) (parent : Node (Leaf V)) (leaf : Leaf V), Holds d (Leaf.Fenced d) lo hi n parent →
        n < SIZE d → i ≤ n → parent.ptrs i = some leaf → leaf.keys (SIZE d - 1) ≠ SENTINEL →
        SplitsLeaf d lo hi n i parent leaf) ∧
    (∀ (lo hi : ℤ) (n i : ℕ) (parent : Node (Node A)) (node : Node A), Holds d (Node.Fenced P d) lo hi n parent →
        n < SIZE d → i ≤ n → parent.ptrs i = some node → node.keys (SIZE d - 1) ≠ SENTINEL →
        SplitsNode P d lo hi n i parent node) ∧
    (∀ (lo hi : ℤ) (n bucket_one bucket_two : ℕ) (parent : Node (Leaf V)) (one two : Leaf V),
        Holds d (Leaf.Fenced d) lo hi n parent → Neighbours n bucket_one bucket_two →
        parent.ptrs bucket_one = some one → parent.ptrs bucket_two = some two → one.keys 1 = SENTINEL →
        two.keys (SIZE d - 1) = SENTINEL → MergesLeaves d lo hi n bucket_one bucket_two parent one two) ∧
    (∀ (lo hi : ℤ) (n bucket_one bucket_two : ℕ) (parent : Node (Node A)) (one two : Node A),
        Holds d (Node.Fenced P d) lo hi n parent → Neighbours n bucket_one bucket_two →
        parent.ptrs bucket_one = some one → parent.ptrs bucket_two = some two → one.keys 0 = SENTINEL →
        two.keys (SIZE d - 1) = SENTINEL → MergesNodes P d lo hi n bucket_one bucket_two parent one two) := by
  refine ⟨?_, ?_, ?_, ?_⟩
  · intro lo hi n i parent leaf h hn hi' hleaf hfull
    exact splitsLeaf hd h hn hi' hleaf hfull
  · intro lo hi n i parent node h hn hi' hnode hfull
    exact splitsNode h hn hi' hnode hfull
  · intro lo hi n bucket_one bucket_two parent one two h hb hone htwo hkey hroom
    exact mergesLeaves hd h hb hone htwo hkey hroom
  · intro lo hi n bucket_one bucket_two parent one two h hb hone htwo hkey hroom
    exact mergesNodes h hb hone htwo hkey hroom

/-- A parent with one child, and one with two. -/
def Node.single (a : A) : Node A := ⟨fun _ => SENTINEL, fun i => if i = 0 then some a else none⟩

def Node.couple (k : ℤ) (a b : A) : Node A :=
  ⟨fun i => if i = 0 then k else SENTINEL, fun i => if i = 0 then some a else if i = 1 then some b else none⟩

lemma holds_single {a : A} (ha : P lo hi a) : Holds d P lo hi 0 (Node.single a) := by
  refine ⟨⟨Nat.zero_le _, fun i j _ hj => absurd hj (Nat.not_lt_zero j), fun i hi => absurd hi (Nat.not_lt_zero i),
    fun i _ _ => rfl⟩, fun i hi => absurd hi (Nat.not_lt_zero i), fun i hi => absurd hi (Nat.not_lt_zero i), ?_, ?_⟩
  · intro i hi'
    obtain rfl := Nat.le_zero.mp hi'
    exact ⟨a, rfl, ha⟩
  · intro i hi' _
    exact if_neg (by omega)

lemma holds_couple {a b : A} (hlo : lo < k) (hhi : k < hi) (hk : k < SENTINEL) (ha : P lo k a) (hb : P k hi b) :
    Holds d P lo hi 1 (Node.couple k a b) := by
  refine ⟨⟨pos_size, fun i j hij hj => by omega, ?_, ?_⟩, ?_, ?_, ?_, ?_⟩
  · intro i hi'
    obtain rfl : i = 0 := by omega
    exact hk
  · intro i hi' _
    exact if_neg (by omega)
  · intro i hi'
    obtain rfl : i = 0 := by omega
    exact hlo
  · intro i hi'
    obtain rfl : i = 0 := by omega
    exact hhi
  · intro i hi'
    rcases Nat.le_one_iff_eq_zero_or_eq_one.mp hi' with rfl | rfl
    · exact ⟨a, rfl, ha⟩
    · exact ⟨b, rfl, hb⟩
  · intro i hi' _
    show (if i = 0 then some a else if i = 1 then some b else none) = none
    rw [if_neg (by omega), if_neg (by omega)]

theorem structural_steps_one :
    (∃ leaf : Leaf ℤ, SplitsLeaf 1 0 10 0 0 (Node.single leaf) leaf) ∧
      (∃ node : Node Unit, SplitsNode (fun _ _ _ => True) 1 0 10 0 0 (Node.single node) node) ∧
      (∃ one two : Leaf ℤ, MergesLeaves 1 0 10 1 1 0 (Node.couple 5 two one) one two) ∧
      ∃ one two : Node Unit, MergesNodes (fun _ _ _ => True) 1 0 10 1 0 1 (Node.couple 5 one two) one two := by
  have hkeys : Ordered 1 (fun i => if i < 3 then (i : ℤ) + 1 else SENTINEL) 3 := by
    refine ⟨Nat.le_refl 3, ?_, ?_, ?_⟩
    · intro i j hij hj
      rw [if_pos hj, if_pos (by omega)]
      omega
    · intro i hi
      rw [if_pos hi]
      have : (i : ℤ) < 3 := by omega
      exact Int.lt_trans (Int.add_lt_add_right this 1) (by decide)
    · intro i hi _
      exact if_neg (by omega)
  have hfree : Ordered 1 (fun _ => SENTINEL) 0 :=
    ⟨Nat.zero_le _, fun i j _ hj => absurd hj (Nat.not_lt_zero j), fun i hi => absurd hi (Nat.not_lt_zero i),
      fun i _ _ => rfl⟩
  have hleaf : Leaf.Fenced 1 0 10 ⟨fun i => if i < 3 then (i : ℤ) + 1 else SENTINEL, fun _ => (0 : ℤ), 0, 10⟩ := by
    refine ⟨rfl, rfl, 3, hkeys, ?_, ?_⟩
    · intro i hi
      show 0 < if i < 3 then (i : ℤ) + 1 else SENTINEL
      rw [if_pos hi]
      omega
    · intro i hi
      show (if i < 3 then (i : ℤ) + 1 else SENTINEL) ≤ 10
      rw [if_pos hi]
      omega
  have hnode : Node.Fenced (fun _ _ (_ : Unit) => True) 1 0 10
      ⟨fun i => if i < 3 then (i : ℤ) + 1 else SENTINEL, fun i => if i ≤ 3 then some () else none⟩ := by
    refine ⟨3, hkeys, ?_, ?_, ?_, ?_⟩
    · intro i hi
      show 0 < if i < 3 then (i : ℤ) + 1 else SENTINEL
      rw [if_pos hi]
      omega
    · intro i hi
      show (if i < 3 then (i : ℤ) + 1 else SENTINEL) < 10
      rw [if_pos hi]
      omega
    · intro i hi
      exact ⟨(), if_pos hi, trivial⟩
    · intro i hi _
      exact if_neg (by omega)
  have hnone : ∀ lo hi : ℤ, Leaf.Fenced 1 lo hi ⟨fun _ => SENTINEL, fun _ => (0 : ℤ), lo, hi⟩ := fun lo hi =>
    ⟨rfl, rfl, 0, hfree, fun i hi => absurd hi (Nat.not_lt_zero i), fun i hi => absurd hi (Nat.not_lt_zero i)⟩
  have hchild : ∀ lo hi : ℤ, Node.Fenced (fun _ _ (_ : Unit) => True) 1 lo hi (Node.single ()) := fun lo hi =>
    ⟨0, holds_single trivial⟩
  obtain ⟨h₁, h₂, h₃, h₄⟩ := structural_steps (V := ℤ) (Nat.le_refl 1) fun _ _ (_ : Unit) => True
  refine ⟨⟨_, h₁ 0 10 0 0 _ _ (holds_single hleaf) (by decide) (Nat.le_refl 0) rfl (by decide)⟩,
    ⟨_, h₂ 0 10 0 0 _ _ (holds_single hnode) (by decide) (Nat.le_refl 0) rfl (by decide)⟩,
    ⟨_, _, h₃ 0 10 1 1 0 _ _ _ (holds_couple (by decide) (by decide) (by decide) (hnone 0 5) (hnone 5 10))
      ⟨Nat.le_refl 1, Nat.zero_le 1, rfl⟩ rfl rfl rfl rfl⟩,
    ⟨_, _, h₄ 0 10 1 0 1 _ _ _ (holds_couple (by decide) (by decide) (by decide) (hchild 0 5) (hchild 5 10))
      ⟨Nat.zero_le 1, Nat.le_refl 1, rfl⟩ rfl rfl rfl rfl⟩⟩

end Steps

end ObjectCache.Btree.Tree
