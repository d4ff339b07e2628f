import Mathlib.Computability.StateTransition
import Mathlib.Tactic.Common

/-! Nodes with one pointer each: what stays reachable when a node is put behind another or bypassed,
and the order of the nodes along the pointers. -/

namespace ObjectCache.Lib

open StateTransition

variable {A : Type*} {f : A → Option A} {a b c p n s : A}

lemma Reaches.refl : Reaches f a a := Relation.ReflTransGen.refl

lemma Reaches.tail (h : Reaches f a b) (hb : f b = some c) : Reaches f a c :=
  Relation.ReflTransGen.tail h hb

/-- Every pointer leads to a node of the set. -/
lemma Reaches.mem {S : Set A} (h : Reaches f a b) (ha : a ∈ S)
    (hS : ∀ x ∈ S, ∀ y, f x = some y → y ∈ S) : b ∈ S := by
  induction h with
  | refl => exact ha
  | tail _ hy ih => exact hS _ ih _ hy

lemma Reaches.eq_or_head (h : Reaches f a b) (ha : f a = some c) : a = b ∨ Reaches f c b := by
  rcases Relation.ReflTransGen.cases_head h with hab | ⟨d, hd, hdb⟩
  · exact .inl hab
  · obtain rfl : c = d := Option.some.inj (ha.symm.trans hd)
    exact .inr hdb

/-- Other pointers that agree on the nodes of the set. -/
lemma Reaches.congr {g : A → Option A} {S : Set A} (h : Reaches f a b) (ha : a ∈ S)
    (hS : ∀ x ∈ S, ∀ y, f x = some y → y ∈ S) (hg : ∀ x ∈ S, g x = f x) : Reaches g a b := by
  induction h with
  | refl => exact .refl
  | @tail x y hx hy ih => exact ih.tail ((hg x (Reaches.mem hx ha hS)).trans hy)

section Order

variable {K : Type*} [Preorder K] {low high : A → K}

/-- Where every pointer leads from a range to a later one, so does every path. -/
lemma Reaches.le {S : Set A} (h : Reaches f a b) (ha : a ∈ S)
    (hS : ∀ x ∈ S, ∀ y, f x = some y → y ∈ S ∧ high x ≤ low y)
    (hr : ∀ x ∈ S, low x ≤ high x) : a = b ∨ high a ≤ low b := by
  induction h with
  | refl => exact .inl rfl
  | @tail b c hb hc ih =>
    have hbS := Reaches.mem hb ha fun x hx y hy => (hS x hx y hy).1
    obtain ⟨-, hle⟩ := hS b hbS c hc
    rcases ih with rfl | ih
    · exact .inr hle
    · exact .inr (ih.trans ((hr b hbS).trans hle))

end Order

section Update

variable [DecidableEq A]

/-- A node put between `p` and its successor. -/
lemma Reaches.insert (h : Reaches f a b) (hp : f p = some s) (hn : f n = some s) (hne : n ≠ p) :
    Reaches (Function.update f p (some n)) a b := by
  induction h with
  | refl => exact .refl
  | @tail x y _ hy ih =>
    by_cases hx : x = p
    · subst hx
      obtain rfl : s = y := Option.some.inj (hp.symm.trans hy)
      have hnew : Reaches (Function.update f x (some n)) a n := ih.tail (by simp)
      exact hnew.tail (by rw [Function.update_of_ne hne]; exact hn)
    · exact ih.tail (by rw [Function.update_of_ne hx]; exact hy)

/-- The successor of `p` bypassed. -/
lemma Reaches.bypass {s : Option A} (h : Reaches f a b) (hp : f p = some c) (hc : f c = s) :
    Reaches (Function.update f p s) a b ∨
      b = c ∧ ∀ d, s = some d → Reaches (Function.update f p s) a d := by
  induction h with
  | refl => exact .inl .refl
  | @tail x y _ hy ih =>
    rcases ih with ih | ⟨rfl, ih⟩
    · by_cases hx : x = p
      · subst hx
        obtain rfl : c = y := Option.some.inj (hp.symm.trans hy)
        exact .inr ⟨rfl, fun d hd => ih.tail (by simp [hd])⟩
      · exact .inl (ih.tail (by rw [Function.update_of_ne hx]; exact hy))
    · exact .inl (ih y (hc.symm.trans hy))

/-- A path around a bypassed node is a path through it. -/
lemma Reaches.of_bypass {s : Option A} (h : Reaches (Function.update f p s) a b) (hp : f p = some c)
    (hc : f c = s) : Reaches f a b := by
  induction h with
  | refl => exact .refl
  | @tail x y _ hy ih =>
    by_cases hx : x = p
    · subst hx
      have hs : s = some y := by simpa using hy
      exact (ih.tail hp).tail (hc.trans hs)
    · exact ih.tail (by simpa [hx] using hy)

/-- A path over a node that was put in is one without it. -/
lemma Reaches.of_insert (h : Reaches (Function.update f p (some n)) a b) (hp : f p = some s)
    (hn : f n = some s) (hne : n ≠ p) : Reaches f a b ∨ b = n ∧ Reaches f a s := by
  induction h with
  | refl => exact .inl .refl
  | @tail x y _ hy ih =>
    by_cases hx : x = p
    · subst hx
      have hyn : n = y := by simpa using hy
      rcases ih with ih | ⟨hxn, -⟩
      · exact .inr ⟨hyn.symm, ih.tail hp⟩
      · exact absurd hxn.symm hne
    · have hxy : f x = some y := by simpa [hx] using hy
      rcases ih with ih | ⟨rfl, ih⟩
      · exact .inl (ih.tail hxy)
      · obtain rfl : s = y := Option.some.inj (hn.symm.trans hxy)
        exact .inl ih

end Update

end ObjectCache.Lib
