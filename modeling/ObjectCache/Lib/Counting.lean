import Mathlib.Data.Fintype.Basic
import Mathlib.Data.Finset.Card
import Mathlib.Algebra.BigOperators.Group.Finset.Basic
import Mathlib.Tactic.Common

/-! Counts under one change, and relations that give each index one value. -/

namespace ObjectCache.Lib

variable {α β ι δ : Type*}

lemma countP_set_add (p : α → Bool) {l : List α} {k : ℕ} {old : α} (h : l[k]? = some old) (a : α) :
    (l.set k a).countP p + (if p old then 1 else 0) = l.countP p + (if p a then 1 else 0) := by
  induction l generalizing k with
  | nil => simp at h
  | cons b l ih =>
    cases k with
    | zero =>
      simp only [List.getElem?_cons_zero, Option.some.injEq] at h
      subst h
      simp only [List.set_cons_zero, List.countP_cons]
      omega
    | succ k =>
      simp only [List.getElem?_cons_succ] at h
      simp only [List.set_cons_succ, List.countP_cons]
      have := ih h
      omega

/-- Two predicates that differ at one element of a list. -/
lemma countP_of_ne {p q : α → Bool} {l : List α} {a : α} (hn : l.Nodup) (ha : a ∈ l)
    (hpq : ∀ b, b ≠ a → p b = q b) :
    l.countP p + (if q a then 1 else 0) = l.countP q + (if p a then 1 else 0) := by
  induction l with
  | nil => cases ha
  | cons b l ih =>
    obtain ⟨hb, hn⟩ := List.nodup_cons.mp hn
    simp only [List.countP_cons]
    rcases List.mem_cons.mp ha with rfl | ha
    · have hrest : l.countP p = l.countP q := by
        refine List.countP_congr fun x hx => ?_
        rw [hpq x]
        rintro rfl
        exact hb hx
      omega
    · have hne : b ≠ a := by
        rintro rfl
        exact hb ha
      rw [hpq b hne]
      have hsame := ih hn ha
      omega

lemma card_filter_update [Fintype ι] [DecidableEq ι] (p : β → Bool) (f : ι → β) (t : ι) (b : β) :
    (Finset.univ.filter fun u => p (Function.update f t b u)).card + (if p (f t) then 1 else 0) =
      (Finset.univ.filter fun u => p (f u)).card + (if p b then 1 else 0) := by
  have hsplit : ∀ g : ι → β, (∀ u, u ≠ t → g u = f u) →
      (Finset.univ.filter fun u => p (g u)).card =
        ((Finset.univ.erase t).filter fun u => p (f u)).card + (if p (g t) then 1 else 0) := by
    intro g hg
    rw [← Finset.insert_erase (Finset.mem_univ t), Finset.filter_insert]
    have hrest : ((Finset.univ.erase t).filter fun u => p (g u)) =
        (Finset.univ.erase t).filter fun u => p (f u) :=
      Finset.filter_congr fun u hu => by rw [hg u (Finset.ne_of_mem_erase hu)]
    split_ifs with h
    · rw [Finset.card_insert_of_notMem (by simp), hrest]
      simp
    · rw [hrest]
      simp
  rw [hsplit f fun _ _ => rfl, hsplit _ fun u hu => Function.update_of_ne hu _ _]
  simp only [Function.update_self]
  omega

lemma sum_update [Fintype ι] [DecidableEq ι] (p : β → ℤ) (f : ι → β) (t : ι) (b : β) :
    ∑ u, p (Function.update f t b u) = ∑ u, p (f u) - p (f t) + p b := by
  have hsplit := fun g : ι → β => Finset.add_sum_erase Finset.univ (fun u => p (g u)) (Finset.mem_univ t)
  rw [← hsplit f, ← hsplit (Function.update f t b)]
  have hrest : ∑ u ∈ Finset.univ.erase t, p (Function.update f t b u) =
      ∑ u ∈ Finset.univ.erase t, p (f u) :=
    Finset.sum_congr rfl fun u hu => by rw [Function.update_of_ne (Finset.ne_of_mem_erase hu)]
  rw [hrest, Function.update_self]
  omega

/-- What one index holds after a change is held by it alone, when it held it before or nobody else did. -/
lemma holder_update [DecidableEq ι] {f : β → Option δ} {g : ι → β} {t u v : ι} {b : β} {d : δ}
    (h : ∀ {t u d}, f (g t) = some d → f (g u) = some d → t = u)
    (hnew : ∀ d, f b = some d → f (g t) = some d ∨ ∀ u, u ≠ t → f (g u) ≠ some d)
    (hu : f (Function.update g t b u) = some d) (hv : f (Function.update g t b v) = some d) : u = v := by
  have hclash : ∀ x, x ≠ t → f b = some d → f (g x) ≠ some d := by
    intro x hx hb hxd
    rcases hnew d hb with ht | hnone
    · exact hx (h hxd ht)
    · exact hnone x hx hxd
  by_cases hut : u = t
  · subst hut
    by_cases hvt : v = u
    · exact hvt.symm
    · rw [Function.update_self] at hu
      rw [Function.update_of_ne hvt] at hv
      exact absurd hv (hclash v hvt hu)
  · rw [Function.update_of_ne hut] at hu
    by_cases hvt : v = t
    · subst hvt
      rw [Function.update_self] at hv
      exact absurd hu (hclash u hut hv)
    · rw [Function.update_of_ne hvt] at hv
      exact h hu hv

/-- Moving one index to another value keeps values unique. -/
lemma existsUnique_move {R S : ι → δ → Prop} (h : ∀ x, ∃! d, R x d) {x : ι} {d : δ}
    (hx : ∀ e, S x e ↔ e = d) (ho : ∀ y, y ≠ x → ∀ e, S y e ↔ R y e) : ∀ y, ∃! e, S y e := by
  intro y
  by_cases hy : y = x
  · subst hy
    exact ⟨d, (hx d).mpr rfl, fun e he => (hx e).mp he⟩
  · obtain ⟨e, he, hu⟩ := h y
    exact ⟨e, (ho y hy e).mpr he, fun e' he' => hu e' ((ho y hy e').mp he')⟩

lemma existsUnique_of_iff {R S : ι → δ → Prop} (h : ∀ x, ∃! d, R x d) (hs : ∀ x d, S x d ↔ R x d) :
    ∀ x, ∃! d, S x d := by
  intro x
  obtain ⟨d, hd, hu⟩ := h x
  exact ⟨d, (hs x d).mpr hd, fun e he => hu e ((hs x e).mp he)⟩

end ObjectCache.Lib
