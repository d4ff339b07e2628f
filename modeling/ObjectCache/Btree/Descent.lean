import ObjectCache.Btree.Subtrees

/-! What the descent of `insert` and `remove` makes of a subtree, level by level. -/

namespace ObjectCache.Btree.Tree

open Lib

variable {V : Type} {fenced : Prop} {d h n m i fuel : ℕ} {lo hi key : ℤ} {bucket : ℤ}
  {M : Meaning V} {e : Effect V}

/-- What the descent leaves of a node, and its answer if it has one. -/
structure Done (fenced : Prop) (d h : ℕ) (lo hi : ℤ) (M : Meaning V) (node : Node (Sub V h))
    (r : Node (Sub V h) × Option (Option V)) : Prop where
  ok : ∃ n, Holds d (Ok fenced d h) lo hi n r.1
  means : ∀ v, r.2 = some v → M (node.content d (pairs d h)) v (r.1.content d (pairs d h))
  still : r.2 = none → r.1.content d (pairs d h) = node.content d (pairs d h)
  answers : fenced → r.2 ≠ none

section Leaves

variable {curr : Node (Leaf V)} {leaf : Leaf V}

lemma keyInRange_iff : leaf.keyInRange key = true ↔ leaf.key_low < key ∧ key ≤ leaf.key_high := by
  rw [Leaf.keyInRange, Bool.and_eq_true, decide_eq_true_eq, decide_eq_true_eq]

/-- The leaf where the key goes, under its parent. -/
structure AtLeaf (fenced : Prop) (d : ℕ) (lo hi key : ℤ) (n i m : ℕ) (curr : Node (Leaf V)) (leaf : Leaf V) :
    Prop where
  node : Holds d (Ok fenced d 0) lo hi n curr
  free : n < SIZE d
  above : lo < key
  below : key ≤ hi
  valid : key < SENTINEL
  route : Route curr.keys n key i
  ptr : curr.ptrs i = some leaf
  fence : fenced → leaf.key_low = lowOf lo curr.keys i ∧ leaf.key_high = highOf hi curr.keys n i
  leaf : leaf.Holds d (lowOf lo curr.keys i) (highOf hi curr.keys n i) m

lemma AtLeaf.found (h : AtLeaf fenced d lo hi key n i m curr leaf) : Found d i i := by
  have hle := h.route.le
  have hfree := h.free
  exact found_of_lt (by omega)

/-- Two neighbouring leaves that are replaced by one. -/
lemma Holds.mergeLeaf {a b one two : Leaf V} {j k l : ℕ} {v : Option V} (hM : Local key M)
    (hn : Holds d (Ok fenced d 0) lo hi n curr) (hj : j < n) (hlt : lo < hi) (ha : curr.ptrs j = some a)
    (hb : curr.ptrs (j + 1) = some b) (hone : one.Holds d (lowOf lo curr.keys j) (curr.keys j) k)
    (htwo : two.Holds d (curr.keys j) (highOf hi curr.keys n (j + 1)) l) (hsum : k + l ≤ SIZE d)
    (hlow : fenced → one.key_low = lowOf lo curr.keys j)
    (hhigh : fenced → two.key_high = highOf hi curr.keys n (j + 1))
    (hother : ∀ x ∈ curr.rest d (Leaf.content d) {j, j + 1}, x.1 ≠ key)
    (hm : M (a.content d ∪ b.content d) v (one.content d ∪ two.content d)) :
    Returns (mergeLeaf d one two j curr) fun r =>
      Done fenced d 0 lo hi M curr (r.2.write d j r.1, some v) := by
  have hcount := hn.count
  have hone' : (one.setRange one.key_low two.key_high).Holds d (lowOf lo curr.keys j) (curr.keys j) k :=
    ⟨hone.toOrdered, hone.above, hone.below⟩
  have hlo : lowOf lo curr.keys j < curr.keys j := by
    have := hn.low_lt_high hlt (i := j) (by omega)
    rwa [highOf, if_pos hj] at this
  have hhi : curr.keys j < highOf hi curr.keys n (j + 1) := hn.low_lt_high hlt (i := j + 1) (by omega)
  obtain ⟨hjoined, hcontent⟩ := hone'.join htwo hsum (Int.le_of_lt hlo) (Int.le_of_lt hhi)
  generalize hw : (one.setRange one.key_low two.key_high).join two k l = whole at hjoined hcontent
  have hok : Ok fenced d 0 (lowOf lo curr.keys j) (highOf hi curr.keys n (j + 1)) whole := by
    rw [← hw] at hjoined ⊢
    exact ⟨fun hf => ⟨hlow hf, hhigh hf⟩, _, hjoined⟩
  have hdrop := hn.drop (C := pairs d 0) (fun _ _ _ _ _ _ hP => hP) hj hok
  refine (mergeLeaf_returns (Q := fun p => Holds d (Ok fenced d 0) lo hi (n - 1) (p.set j whole) ∧
    (p.set j whole).content d (pairs d 0) = pairs d 0 whole ∪ curr.rest d (pairs d 0) {j, j + 1})
    hone htwo hsum (hdrop.mono fun r hr => hr.2)).mono ?_
  rintro ⟨one', parent'⟩ ⟨rfl, hok', hcontent'⟩
  dsimp only at *
  rw [hw]
  have hwrite : parent'.write d j whole = parent'.set j whole :=
    (found_of_lt (show j < SIZE d by omega)).write
  refine (congrArg (fun p => Done fenced d 0 lo hi M curr (p, some v)) hwrite).mpr ?_
  have hold : curr.content d (pairs d 0) = a.content d ∪ b.content d ∪ curr.rest d (Leaf.content d) {j, j + 1} :=
    content_two (by omega) ha hb
  refine ⟨⟨n - 1, hok'⟩, fun x hx => ?_, fun hx => ?_, fun _ hx => ?_⟩
  · cases hx
    rw [hold, hcontent']
    refine hM _ _ _ _ hother ?_
    show M _ v (whole.content d)
    rw [hcontent]
    exact hm
  · cases hx
  · cases hx

end Leaves

/-! ### The levels above -/

section Levels

/-- A node whose number of separators is `good` if the key goes there. -/
def Reads (fenced : Prop) (d h : ℕ) (key : ℤ) (good : ℕ → Prop) (lo hi : ℤ) (a : Node (Sub V h)) : Prop :=
  ∃ c, Holds d (Ok fenced d h) lo hi c a ∧ (lo < key → key ≤ hi → good c)

variable {parent : Node (Node (Sub V h))} {curr one two : Node (Sub V h)} {good : ℕ → Prop}

lemma Reads.ok {a : Node (Sub V h)} (h : Reads fenced d h key good lo hi a) : Ok fenced d (_ + 1) lo hi a :=
  ⟨h.choose, h.choose_spec.1⟩

/-- The key goes to one child only. -/
lemma Holds.elsewhere {A : Type} {P : ℤ → ℤ → A → Prop} {node : Node A} {j : ℕ}
    (hn : Holds d P lo hi n node) (hr : Route node.keys n key i) (hj : j ≤ n) (hji : j ≠ i)
    (hlow : lowOf lo node.keys j < key) : ¬ key ≤ highOf hi node.keys n j :=
  fun hhigh => hji ((hn.route hj hlow hhigh).unique hr)

lemma Holds.mergeNode {j k l : ℕ} (hn : Holds d (Ok fenced d (h + 1)) lo hi n parent)
    (hj : j < n) (hlt : lo < hi) (hr : Route parent.keys n key i) (hi' : i = j ∨ i = j + 1)
    (ha : parent.ptrs j = some one) (hb : parent.ptrs (j + 1) = some two)
    (hone : Holds d (Ok fenced d h) (lowOf lo parent.keys j) (parent.keys j) k one)
    (htwo : Holds d (Ok fenced d h) (parent.keys j) (highOf hi parent.keys n (j + 1)) l two)
    (hsum : k + l + 1 ≤ SIZE d) :
    Returns (mergeNode d one two j parent) fun r =>
      Holds d (Reads fenced d h key (0 < ·)) lo hi (n - 1) (r.2.set j r.1) ∧
        (r.2.set j r.1).content d (pairs d (h + 1)) = parent.content d (pairs d (h + 1)) := by
  have hcount := hn.count
  have hlo : lowOf lo parent.keys j < parent.keys j := by
    have := hn.low_lt_high hlt (i := j) (by omega)
    rwa [highOf, if_pos hj] at this
  have hhi : parent.keys j < highOf hi parent.keys n (j + 1) := hn.low_lt_high hlt (i := j + 1) (by omega)
  obtain ⟨hjoin, hcontent⟩ := hone.join (C := pairs d h) htwo hsum hlo hhi (hn.valid j hj)
  generalize hw : (⟨joinedKeys one.keys two.keys (parent.keys j) k l, joinedPtrs one.ptrs two.ptrs k l⟩ :
    Node (Sub V h)) = whole at hjoin hcontent
  have hok : Reads fenced d h key (0 < ·) (lowOf lo parent.keys j) (highOf hi parent.keys n (j + 1)) whole :=
    ⟨k + l + 1, hjoin, fun _ _ => by omega⟩
  have hdrop := hn.drop (C := pairs d (h + 1)) (P := Reads fenced d h key (0 < ·))
    (fun i' hle hij hij' c _ hok => ?_) hj hok
  · refine (mergeNode_returns (Q := fun p => Holds d (Reads fenced d h key (0 < ·)) lo hi (n - 1) (p.set j whole) ∧
      (p.set j whole).content d (pairs d (h + 1)) =
        pairs d (h + 1) whole ∪ parent.rest d (pairs d (h + 1)) {j, j + 1})
      hone.toOrdered htwo.toOrdered hsum hdrop).mono ?_
    rintro ⟨one', parent'⟩ ⟨rfl, hp, hcontent'⟩
    dsimp only at *
    rw [hw]
    have htwo := congrArg (fun s => s ∪ parent.rest d (pairs d (h + 1)) {j, j + 1}) hcontent
    exact ⟨hp, hcontent'.trans (htwo.trans (content_two (by omega) ha hb).symm)⟩
  · obtain ⟨c', hc'⟩ := hok
    have hne : i' ≠ i := by omega
    exact ⟨c', hc', fun hlow hhigh => absurd hhigh (hn.elsewhere hr hle hne hlow)⟩

lemma Done.congr {p : Node (Sub V h)} {node : Node (Sub V h)} {r : Node (Sub V h) × Option (Option V)}
    (hd : Done fenced d h lo hi M p r) (hc : p.content d (pairs d h) = node.content d (pairs d h)) :
    Done fenced d h lo hi M node r := by
  obtain ⟨hok, hm, hs, ha⟩ := hd
  rw [hc] at hm hs
  exact ⟨hok, hm, hs, ha⟩

end Levels

end ObjectCache.Btree.Tree
