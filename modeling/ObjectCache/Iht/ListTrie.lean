import ObjectCache.Lib.HashTrie
import ObjectCache.Iht.EList

/-! ELists in the leaves of a trie: what a search at the leaf of a key finds, and what insertion,
removal and rehashing there do to the map. -/

set_option linter.unusedSectionVars false

namespace ObjectCache.Iht

open Lib

variable {A K V : Type} [DecidableEq K] {slot : ℕ → K → ℕ} {t : Trie A K V} {m : K → Option V}
  {k : K} {v : V} {a : A} {d : ℕ}

/-- The trie holds the map. -/
structure Holds (slot : ℕ → K → ℕ) (t : Trie A K V) (m : K → Option V) : Prop where
  placed : t.Placed slot
  map : t.Represents m

/-- At the leaf of a key the list answers for the map. -/
lemma Holds.lookup (h : Holds slot t m) (hl : t.Leaf slot k d a) :
    EList.lookup (t.items a (slot d k)) k = m k := by
  refine Option.ext fun v => ?_
  rw [EList.lookup_eq_some (h.placed.nodup a _), h.map k v, h.placed.stores_iff hl]

lemma apply_insert_of_some (h : (m k).isSome) : (MapOp.insert k v).apply m = m := by
  rw [MapOp.apply, if_neg]
  simpa using Option.ne_none_iff_isSome.mpr h

lemma apply_remove_of_none (h : m k = none) : (MapOp.remove k : MapOp K V).apply m = m := by
  rw [MapOp.apply, ← h]
  exact Function.update_eq_self k m

/-- The items of a rehashed list that go to one bucket. -/
lemma rehashed_filter (h : t.Placed slot) (i : ℕ) {g : K → ℕ}
    (hg : ∀ kv ∈ t.items a i, g kv.1 = slot (d + 1) kv.1) :
    Trie.Rehashed slot d (t.items a i) fun j => (t.items a i).filter fun kv => g kv.1 = j where
  mem j k v := by
    rw [List.mem_filter, decide_eq_true_iff]
    exact and_congr_right fun hm => by rw [hg _ hm]
  nodup j := (h.nodup a i).sublist (List.filter_sublist.map Prod.fst)

variable [DecidableEq A]

lemma Holds.expand (h : Holds slot t m) {b : A} {f : ℕ → List (K × V)} (hl : t.Leaf slot k d a)
    (hb : t.Fresh b) (hf : Trie.Rehashed slot d (t.items a (slot d k)) f) :
    Holds slot (t.expand a (slot d k) b f) m where
  placed := h.placed.expand hl hb hf
  map k' v := (h.map k' v).trans (Trie.expand_stores hl hb hf).symm

/-- New pairs for one key at its leaf. -/
lemma Holds.setItems (h : Holds slot t m) (hl : t.Leaf slot k d a) {l : List (K × V)}
    {m' : K → Option V} (hn : (l.map Prod.fst).Nodup)
    (hrest : ∀ k' v, k' ≠ k → ((k', v) ∈ l ↔ (k', v) ∈ t.items a (slot d k)))
    (hnew : ∀ v, (k, v) ∈ l ↔ m' k = some v) (hsame : ∀ k', k' ≠ k → m' k' = m k') :
    Holds slot (t.setItems a (slot d k) l) m' := by
  have hplaced : (t.setItems a (slot d k) l).Placed slot := by
    refine h.placed.setItems hl.2 (fun k' v hm => ?_) hn
    by_cases hk : k' = k
    · subst hk
      exact ⟨d, hl.1, rfl⟩
    · exact h.placed.home ((hrest k' v hk).mp hm)
  exact ⟨hplaced, Trie.setItems_represents h.map hl hplaced hrest hnew hsame⟩

lemma Holds.insert (h : Holds slot t m) (hl : t.Leaf slot k d a) (hm : m k = none) (v : V) :
    Holds slot (t.setItems a (slot d k) (EList.elist_insert (t.items a (slot d k)) k v))
      ((MapOp.insert k v).apply m) := by
  have happly : (MapOp.insert k v).apply m = Function.update m k (some v) := by
    simp [MapOp.apply, hm]
  have hnone := (h.lookup hl).trans hm
  have hnodup := h.placed.nodup a (slot d k)
  refine h.setItems hl (EList.nodup_elist_insert hnodup hnone) (fun k' v' hk => ?_)
    (fun v' => ?_) fun k' hk => ?_
  · simp [EList.elist_insert, hk]
  · have hnot : ∀ w, (k, w) ∉ t.items a (slot d k) := by
      intro w hw
      exact EList.lookup_eq_none.mp hnone (List.mem_map_of_mem hw)
    simp [EList.elist_insert, happly, hnot, eq_comm]
  · rw [happly, Function.update_of_ne hk]

lemma Holds.remove (h : Holds slot t m) (hl : t.Leaf slot k d a) :
    Holds slot (t.setItems a (slot d k) (EList.remove (t.items a (slot d k)) k))
      ((MapOp.remove k : MapOp K V).apply m) := by
  have hnodup := h.placed.nodup a (slot d k)
  refine h.setItems hl (EList.nodup_remove hnodup) (fun k' v' hk => ?_) (fun v' => ?_) fun k' hk => ?_
  · exact (EList.mem_remove hnodup k' v').trans (and_iff_left hk)
  · simp only [MapOp.apply, Function.update_self]
    rw [EList.mem_remove hnodup]
    simp
  · exact Function.update_of_ne hk _ _

end ObjectCache.Iht
