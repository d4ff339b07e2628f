import ObjectCache.Btree.Descent

/-! What `traverse` makes of the whole tree, and the leaf that `contains` finds. -/

namespace ObjectCache.Btree.Tree

open Lib

variable {A V : Type} {fenced : Prop} {d h n m i fuel it_counter : ℕ} {lo hi key : ℤ} {bucket : ℤ}
  {M : Meaning V} {e : Effect V}

def Root.Ok (fenced : Prop) (d : ℕ) (root : Root V) : Prop :=
  Tree.Ok fenced d root.height INT_MIN SENTINEL root.start

def Root.pairs (d : ℕ) (root : Root V) : Set (ℤ × V) := Tree.pairs d root.height root.start

def Sub.keys : (h : ℕ) → Sub V h → Slots ℤ
  | 0, (leaf : Leaf V) => leaf.keys
  | _ + 1, (node : Node (Sub V _)) => node.keys

/-- The node at the top is empty and its only child is full. -/
def Stuck (d : ℕ) (root : Root V) : Prop :=
  ∃ h, ∃ node : Node (Sub V h), ∃ child, root = ⟨h + 1, node⟩ ∧ node.keys 0 = SENTINEL ∧
    node.ptrs 0 = some child ∧ Sub.keys h child (SIZE d - 1) ≠ SENTINEL

lemma Leaf.new_holds [IntCast V] : (Leaf.new : Leaf V).Holds d lo hi 0 :=
  ⟨⟨Nat.zero_le _, fun i j _ hj => by omega, fun i hi => by omega, fun _ _ _ => rfl⟩,
    fun i hi => by omega, fun i hi => by omega⟩

lemma Root.new_ok [IntCast V] : (Root.new : Root V).Ok fenced d := ⟨fun _ => ⟨rfl, rfl⟩, 0, Leaf.new_holds⟩

/-- Room for a key at the top, and a key. -/
def Root.Open (d : ℕ) (root : Root V) : Prop :=
  Sub.keys root.height root.start 0 ≠ SENTINEL ∧
    Sub.keys root.height root.start (SIZE d - 1) = SENTINEL

end ObjectCache.Btree.Tree
