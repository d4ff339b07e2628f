import ObjectCache.Btree.Children
import ObjectCache.Btree.Leaves
import ObjectCache.Btree.Traverse

/-! The subtrees: their bounds and their pairs, and what one level of the descent makes of them. -/

namespace ObjectCache.Btree.Tree

open Lib

variable {A V : Type} {fenced : Prop} {d h n m i j fuel : ℕ} {lo hi hi' key : ℤ} {bucket : ℤ}

/-- A subtree between its bounds. Where `fenced` holds, the fences of the leaves are the bounds. -/
def Ok (fenced : Prop) (d : ℕ) : (h : ℕ) → ℤ → ℤ → Sub V h → Prop
  | 0, lo, hi, (leaf : Leaf V) =>
    (fenced → leaf.key_low = lo ∧ leaf.key_high = hi) ∧ ∃ n, leaf.Holds d lo hi n
  | h + 1, lo, hi, (node : Node (Sub V h)) => ∃ n, Holds d (Ok fenced d h) lo hi n node

def pairs (d : ℕ) : (h : ℕ) → Sub V h → Set (ℤ × V)
  | 0, (leaf : Leaf V) => leaf.content d
  | h + 1, (node : Node (Sub V h)) => node.content d (pairs d h)

/-! ### Bounds -/

section Bounds

variable {P : ℤ → ℤ → A → Prop} {node : Node A} {a : A}

lemma Holds.low_le (h : Holds d P lo hi n node) (hi' : i ≤ n) : lo ≤ lowOf lo node.keys i := by
  rw [lowOf]
  split_ifs with hz
  · exact Int.le_refl lo
  · exact Int.le_of_lt (h.above (i - 1) (by omega))

lemma Holds.le_high (h : Holds d P lo hi n node) : highOf hi node.keys n i ≤ hi := by
  rw [highOf]
  split_ifs with hz
  · exact Int.le_of_lt (h.below i hz)
  · exact Int.le_refl hi

lemma Holds.low_lt_high (h : Holds d P lo hi n node) (hlt : lo < hi) (hi' : i ≤ n) :
    lowOf lo node.keys i < highOf hi node.keys n i := by
  rw [lowOf, highOf]
  split_ifs with h₁ h₂ h₂
  · exact h.above i h₂
  · exact hlt
  · exact h.lt (i - 1) i (by omega) h₂
  · exact h.below (i - 1) (by omega)

lemma Holds.ptr_le (h : Holds d P lo hi n node) (hi' : i ≤ SIZE d) (ha : node.ptrs i = some a) : i ≤ n := by
  by_contra hgt
  rw [h.null i (by omega) hi'] at ha
  cases ha

lemma Holds.child_of (h : Holds d P lo hi n node) (hi' : i ≤ n) (ha : node.ptrs i = some a) :
    P (lowOf lo node.keys i) (highOf hi node.keys n i) a := by
  obtain ⟨b, hb, hP⟩ := h.child i hi'
  rw [ha, Option.some.injEq] at hb
  rwa [hb]

lemma Holds.imp {Q : ℤ → ℤ → A → Prop} (h : Holds d P lo hi n node) (hQ : ∀ lo hi a, P lo hi a → Q lo hi a) :
    Holds d Q lo hi n node where
  toOrdered := h.toOrdered
  above := h.above
  below := h.below
  child i hi := by
    obtain ⟨a, ha, hP⟩ := h.child i hi
    exact ⟨a, ha, hQ _ _ _ hP⟩
  null := h.null

/-- The last child takes a higher bound. -/
lemma Holds.mono {Q : ℤ → ℤ → A → Prop} (h : Holds d P lo hi n node) (hle : hi ≤ hi') (hsame : fenced → hi = hi')
    (hQ : ∀ lo hi₁ hi₂ a, hi₁ ≤ hi₂ → (fenced → hi₁ = hi₂) → P lo hi₁ a → Q lo hi₂ a) :
    Holds d Q lo hi' n node where
  toOrdered := h.toOrdered
  above := h.above
  below i hi := Int.lt_of_lt_of_le (h.below i hi) hle
  child i hi := by
    obtain ⟨a, ha, hP⟩ := h.child i hi
    refine ⟨a, ha, hQ _ _ _ _ ?_ (fun hf => ?_) hP⟩
    · rw [highOf, highOf]
      split_ifs
      · exact Int.le_refl _
      · exact hle
    · rw [hsame hf]
  null := h.null

end Bounds

lemma Ok.mono {t : Sub V h} (ht : Ok fenced d h lo hi t) (hle : hi ≤ hi') (hsame : fenced → hi = hi') :
    Ok fenced d h lo hi' t := by
  induction h generalizing lo hi hi' with
  | zero =>
    obtain ⟨hf, n, hn⟩ := ht
    refine ⟨fun hx => ?_, n, hn.toOrdered, hn.above, fun i hi => Int.le_trans (hn.below i hi) hle⟩
    rw [← hsame hx]
    exact hf hx
  | succ h ih =>
    obtain ⟨n, hn⟩ := ht
    exact ⟨n, hn.mono hle hsame fun _ _ _ _ hle hsame hP => ih hP hle hsame⟩

lemma Ok.bounds {t : Sub V h} (ht : Ok fenced d h lo hi t) {x : ℤ × V} (hx : x ∈ pairs d h t) :
    lo < x.1 ∧ x.1 ≤ hi := by
  induction h generalizing lo hi with
  | zero =>
    obtain ⟨-, n, hn⟩ := ht
    exact hn.bounds hx
  | succ h ih =>
    obtain ⟨n, hn⟩ := ht
    obtain ⟨i, hi', a, ha, hxa⟩ := hx
    have hin := hn.ptr_le hi' ha
    obtain ⟨hlow, hhigh⟩ := ih (hn.child_of hin ha) hxa
    exact ⟨Int.lt_of_le_of_lt (hn.low_le hin) hlow, Int.le_trans hhigh hn.le_high⟩

/-- The other children of a node do not hold the key. -/
lemma Holds.rest_ne {node : Node (Sub V h)} (hn : Holds d (Ok fenced d h) lo hi n node)
    (hr : Route node.keys n key i) {x : ℤ × V} (hx : x ∈ node.rest d (pairs d h) {i}) : x.1 ≠ key := by
  obtain ⟨j, hj, hji, a, ha, hxa⟩ := hx
  have hjn := hn.ptr_le hj ha
  obtain ⟨hlow, hhigh⟩ := (hn.child_of hjn ha).bounds hxa
  rcases Nat.lt_or_gt_of_ne hji with hlt | hgt
  · have hle := hr.le
    rw [highOf, if_pos (by omega)] at hhigh
    have := hr.before j hlt
    omega
  · have hb := hr.behind (by omega)
    rw [lowOf, if_neg (by omega)] at hlow
    rcases Nat.eq_or_lt_of_le (show i ≤ j - 1 by omega) with rfl | hlt
    · omega
    · have := hn.lt i (j - 1) hlt (by omega)
      omega

/-! ### Reading and replacing a child -/

section Child

variable {P : ℤ → ℤ → A → Prop} {node : Node A} {a : A}

lemma Found.slot (hf : Found d i bucket) : slotOf d bucket = i := by
  rw [slotOf]
  rcases hf with ⟨-, rfl⟩ | ⟨rfl, rfl⟩
  · rw [if_neg (by omega)]
  · rw [if_pos rfl]

lemma found_of_lt (hi' : i < SIZE d) : Found d i i := .inl ⟨hi', rfl⟩

lemma Found.write (hf : Found d i bucket) : node.write d bucket a = node.set i a := by
  rw [Node.write, Node.set, hf.slot, Int.toNat_natCast]

end Child

end ObjectCache.Btree.Tree
