import ObjectCache.Lib.FiniteMap
import Mathlib.Data.List.Nodup

/-! Tables of lists that grow into trees: every bucket holds items or leads to a further table, and
the bucket of a key is chosen anew on each level. -/

set_option linter.unusedSectionVars false

namespace ObjectCache.Lib

@[ext]
structure Trie (A K V : Type*) where
  root : A
  link : A → ℕ → Option A
  items : A → ℕ → List (K × V)

namespace Trie

variable {A K V : Type*} (slot : ℕ → K → ℕ) (t : Trie A K V)

/-- The table on each level of the path of a key. -/
def path (k : K) : ℕ → Option A
  | 0 => some t.root
  | d + 1 => (path k d).bind fun a => t.link a (slot d k)

/-- The path of a key ends at this table. -/
def Leaf (k : K) (d : ℕ) (a : A) : Prop :=
  t.path slot k d = some a ∧ t.link a (slot d k) = none

def Stores (k : K) (v : V) : Prop := ∃ a i, (k, v) ∈ t.items a i

def Represents (m : K → Option V) : Prop := ∀ k v, m k = some v ↔ t.Stores k v

/-- Every item lies where the path of its key ends, and once. -/
structure Placed : Prop where
  empty : ∀ {a i b}, t.link a i = some b → t.items a i = []
  home : ∀ {a i k v}, (k, v) ∈ t.items a i → ∃ d, t.path slot k d = some a ∧ slot d k = i
  nodup : ∀ a i, ((t.items a i).map Prod.fst).Nodup
  level : ∀ {k k' d d' a}, t.path slot k d = some a → t.path slot k' d' = some a → d = d'

variable {slot t} {k : K} {v : V} {a b : A} {d i : ℕ}

lemma path_zero (k : K) : t.path slot k 0 = some t.root := rfl

lemma path_succ : t.path slot k (d + 1) = some b ↔
    ∃ a, t.path slot k d = some a ∧ t.link a (slot d k) = some b := by
  simp [path, Option.bind_eq_some_iff]

lemma path_le {n m : ℕ} (h : t.path slot k m = some b) (hn : n ≤ m) :
    ∃ a, t.path slot k n = some a := by
  induction m generalizing b with
  | zero => exact ⟨b, by rwa [Nat.le_zero.mp hn]⟩
  | succ m ih =>
    rcases Nat.lt_or_eq_of_le hn with hlt | rfl
    · obtain ⟨c, hc, -⟩ := path_succ.mp h
      exact ih hc (by omega)
    · exact ⟨b, h⟩

/-- No path goes on behind its leaf. -/
lemma Leaf.le (h : t.Leaf slot k d a) {n : ℕ} (hb : t.path slot k n = some b) : n ≤ d := by
  by_contra hn
  obtain ⟨c, hc⟩ := path_le hb (show d + 1 ≤ n by omega)
  obtain ⟨e, he, hl⟩ := path_succ.mp hc
  rw [h.1, Option.some.injEq] at he
  subst he
  rw [h.2] at hl
  cases hl

lemma Leaf.unique {d' : ℕ} (h : t.Leaf slot k d a) (h' : t.Leaf slot k d' b) : d = d' ∧ a = b := by
  obtain rfl : d = d' := Nat.le_antisymm (h'.le h.1) (h.le h'.1)
  exact ⟨rfl, Option.some.inj (h.1.symm.trans h'.1)⟩

lemma Placed.leaf (h : t.Placed slot) (hm : (k, v) ∈ t.items a i) :
    ∃ d, t.Leaf slot k d a ∧ slot d k = i := by
  obtain ⟨d, hp, rfl⟩ := h.home hm
  refine ⟨d, ⟨hp, ?_⟩, rfl⟩
  cases hl : t.link a (slot d k) with
  | none => rfl
  | some b =>
    rw [h.empty hl] at hm
    cases hm

lemma Placed.stores_iff (h : t.Placed slot) (hl : t.Leaf slot k d a) :
    t.Stores k v ↔ (k, v) ∈ t.items a (slot d k) := by
  refine ⟨?_, fun hm => ⟨a, slot d k, hm⟩⟩
  rintro ⟨b, j, hm⟩
  obtain ⟨n, hn, rfl⟩ := h.leaf hm
  obtain ⟨rfl, rfl⟩ := hl.unique hn
  exact hm

lemma eq_of_mem {l : List (K × V)} (hn : (l.map Prod.fst).Nodup) {w : V} (hv : (k, v) ∈ l)
    (hw : (k, w) ∈ l) : v = w :=
  congrArg Prod.snd (List.inj_on_of_nodup_map hn hv hw rfl)

lemma Placed.stores_unique (h : t.Placed slot) {w : V} (hv : t.Stores k v) (hw : t.Stores k w) :
    v = w := by
  obtain ⟨a, i, hm⟩ := hv
  obtain ⟨d, hl, rfl⟩ := h.leaf hm
  exact eq_of_mem (h.nodup a _) hm ((h.stores_iff hl).mp hw)

/-- A single table without items. -/
lemma Placed.of_no_link (hl : ∀ a i, t.link a i = none) (hi : ∀ a i, t.items a i = []) :
    t.Placed slot := by
  have hroot : ∀ {k d a}, t.path slot k d = some a → d = 0 := by
    intro k d a h
    cases d with
    | zero => rfl
    | succ d =>
      obtain ⟨b, -, hb⟩ := path_succ.mp h
      rw [hl] at hb
      cases hb
  refine ⟨fun h => ?_, fun h => ?_, fun a i => ?_, fun h h' => (hroot h).trans (hroot h').symm⟩
  · rw [hl] at h
    cases h
  · rw [hi] at h
    cases h
  · rw [hi]
    exact List.nodup_nil

open Classical in
lemma Placed.exists_represents (h : t.Placed slot) : ∃ m, t.Represents m := by
  refine ⟨fun k => if hk : ∃ v, t.Stores k v then some hk.choose else none, fun k v => ?_⟩
  dsimp only
  by_cases hk : ∃ v, t.Stores k v
  · rw [dif_pos hk, Option.some.injEq]
    constructor
    · rintro rfl
      exact hk.choose_spec
    · exact h.stores_unique hk.choose_spec
  · rw [dif_neg hk]
    exact iff_of_false (by simp) fun hv => hk ⟨v, hv⟩

/-! ### Changing the items of one bucket -/

variable [DecidableEq A]

def setItems (t : Trie A K V) (a : A) (i : ℕ) (l : List (K × V)) : Trie A K V :=
  { t with items := Function.update t.items a (Function.update (t.items a) i l) }

lemma setItems_items (l : List (K × V)) (b : A) (j : ℕ) :
    (t.setItems a i l).items b j = if b = a ∧ j = i then l else t.items b j := by
  by_cases hb : b = a
  · subst hb
    by_cases hj : j = i
    · simp [setItems, hj]
    · simp [setItems, hj]
  · simp [setItems, hb]

lemma setItems_path (l : List (K × V)) (n : ℕ) :
    (t.setItems a i l).path slot k n = t.path slot k n := by
  induction n with
  | zero => rfl
  | succ n ih => rw [path, path, ih]; rfl

lemma setItems_leaf (l : List (K × V)) : (t.setItems a i l).Leaf slot k d b ↔ t.Leaf slot k d b := by
  rw [Leaf, Leaf, setItems_path]
  rfl

lemma Placed.setItems (h : t.Placed slot) {l : List (K × V)} (ha : t.link a i = none)
    (hl : ∀ k v, (k, v) ∈ l → ∃ d, t.path slot k d = some a ∧ slot d k = i)
    (hn : (l.map Prod.fst).Nodup) : (t.setItems a i l).Placed slot where
  empty {b j c} hb := by
    have hne : ¬ (b = a ∧ j = i) := by
      rintro ⟨rfl, rfl⟩
      exact absurd (ha.symm.trans hb) (by simp)
    rw [setItems_items, if_neg hne]
    exact h.empty hb
  home {b j k v} hm := by
    simp only [setItems_path]
    rw [setItems_items] at hm
    split_ifs at hm with hb
    · obtain ⟨rfl, rfl⟩ := hb
      exact hl k v hm
    · exact h.home hm
  nodup b j := by
    rw [setItems_items]
    split_ifs
    · exact hn
    · exact h.nodup b j
  level hp hp' := h.level (by rwa [setItems_path] at hp) (by rwa [setItems_path] at hp')

/-- New items for one key at its leaf, the others kept. -/
lemma setItems_represents {m m' : K → Option V} (hm : t.Represents m)
    (hk : t.Leaf slot k d a) {l : List (K × V)} (hp : (t.setItems a (slot d k) l).Placed slot)
    (hrest : ∀ k' v, k' ≠ k → ((k', v) ∈ l ↔ (k', v) ∈ t.items a (slot d k)))
    (hnew : ∀ v, (k, v) ∈ l ↔ m' k = some v) (hsame : ∀ k', k' ≠ k → m' k' = m k') :
    (t.setItems a (slot d k) l).Represents m' := by
  intro k' v
  by_cases hk' : k' = k
  · subst hk'
    rw [hp.stores_iff ((setItems_leaf l).mpr hk), setItems_items, if_pos ⟨rfl, rfl⟩, hnew]
  · rw [hsame k' hk', hm k' v]
    refine exists_congr fun b => exists_congr fun j => ?_
    rw [setItems_items]
    split_ifs with hb
    · obtain ⟨rfl, rfl⟩ := hb
      exact (hrest k' v hk').symm
    · rfl

/-! ### Putting a further table behind a bucket -/

def expand (t : Trie A K V) (a : A) (i : ℕ) (b : A) (f : ℕ → List (K × V)) : Trie A K V where
  root := t.root
  link := Function.update t.link a (Function.update (t.link a) i (some b))
  items := Function.update (Function.update t.items a (Function.update (t.items a) i [])) b f

/-- Nothing leads to this table, and nothing is in it. -/
structure Fresh (t : Trie A K V) (b : A) : Prop where
  root : b ≠ t.root
  unlinked : ∀ c j, t.link c j ≠ some b
  link : ∀ j, t.link b j = none
  items : ∀ j, t.items b j = []

lemma expand_link {f : ℕ → List (K × V)} (c : A) (j : ℕ) :
    (t.expand a i b f).link c j = if c = a ∧ j = i then some b else t.link c j := by
  by_cases hc : c = a
  · subst hc
    by_cases hj : j = i
    · simp [expand, hj]
    · simp [expand, hj]
  · simp [expand, hc]

lemma expand_items {f : ℕ → List (K × V)} (c : A) (j : ℕ) :
    (t.expand a i b f).items c j =
      if c = b then f j else if c = a ∧ j = i then [] else t.items c j := by
  by_cases hb : c = b
  · simp [expand, hb]
  · by_cases hc : c = a
    · subst hc
      by_cases hj : j = i
      · simp [expand, hj, hb]
      · simp [expand, hj, hb]
    · simp [expand, hc, hb]

lemma Fresh.not_on_path (hb : t.Fresh b) (n : ℕ) : t.path slot k n ≠ some b := by
  intro h
  cases n with
  | zero => exact hb.root (Option.some.inj h).symm
  | succ n =>
    obtain ⟨c, -, hl⟩ := path_succ.mp h
    exact hb.unlinked c _ hl

lemma path_expand_of_path {f : ℕ → List (K × V)} (ha : t.link a i = none) {n : ℕ} {c : A}
    (h : t.path slot k n = some c) : (t.expand a i b f).path slot k n = some c := by
  induction n generalizing c with
  | zero => exact h
  | succ n ih =>
    obtain ⟨e, he, hl⟩ := path_succ.mp h
    refine path_succ.mpr ⟨e, ih he, ?_⟩
    rw [expand_link, if_neg]
    · exact hl
    · rintro ⟨rfl, rfl⟩
      exact absurd (ha.symm.trans hl) (by simp)

lemma path_of_path_expand {f : ℕ → List (K × V)} (hb : t.Fresh b) {n : ℕ} {c : A}
    (h : (t.expand a i b f).path slot k n = some c) :
    (t.path slot k n = some c ∧ c ≠ b) ∨
      c = b ∧ ∃ m, n = m + 1 ∧ t.path slot k m = some a ∧ slot m k = i := by
  induction n generalizing c with
  | zero =>
    refine .inl ⟨h, ?_⟩
    rintro rfl
    exact hb.root (Option.some.inj h).symm
  | succ n ih =>
    obtain ⟨e, he, hl⟩ := path_succ.mp h
    rw [expand_link] at hl
    rcases ih he with ⟨hp, -⟩ | ⟨rfl, m, rfl, hp, hs⟩
    · split_ifs at hl with hc
      · obtain ⟨rfl, rfl⟩ := hc
        exact .inr ⟨(Option.some.inj hl).symm, n, rfl, hp, rfl⟩
      · refine .inl ⟨path_succ.mpr ⟨e, hp, hl⟩, ?_⟩
        rintro rfl
        exact hb.unlinked e _ hl
    · split_ifs at hl with hc
      · obtain ⟨rfl, -⟩ := hc
        exact absurd hp (hb.not_on_path m)
      · rw [hb.link] at hl
        cases hl

/-- The items of the bucket, each moved to where the next level looks for its key. -/
structure Rehashed (slot : ℕ → K → ℕ) (d : ℕ) (l : List (K × V)) (f : ℕ → List (K × V)) : Prop where
  mem : ∀ j k v, (k, v) ∈ f j ↔ (k, v) ∈ l ∧ slot (d + 1) k = j
  nodup : ∀ j, ((f j).map Prod.fst).Nodup

lemma Placed.expand (h : t.Placed slot) {k₀ : K} (ha : t.Leaf slot k₀ d a)
    (hb : t.Fresh b) {f : ℕ → List (K × V)}
    (hf : Rehashed slot d (t.items a (slot d k₀)) f) :
    (t.expand a (slot d k₀) b f).Placed slot := by
  have hab : a ≠ b := by
    rintro rfl
    exact hb.not_on_path d ha.1
  refine ⟨fun {c j e} hl => ?_, fun {c j k v} hm => ?_, fun c j => ?_, fun {k k' n n' c} hp hp' => ?_⟩
  · rw [expand_link] at hl
    rw [expand_items]
    split_ifs at hl with hc
    · rw [if_neg (by rw [hc.1]; exact hab), if_pos hc]
    · by_cases hcb : c = b
      · rw [hcb, hb.link] at hl
        cases hl
      · rw [if_neg hcb, if_neg hc]
        exact h.empty hl
  · rw [expand_items] at hm
    split_ifs at hm with hcb hc
    · subst hcb
      obtain ⟨hm, hj⟩ := (hf.mem j k v).mp hm
      obtain ⟨n, hp, hs⟩ := h.home hm
      obtain rfl : n = d := h.level hp ha.1
      refine ⟨n + 1, path_succ.mpr ⟨a, path_expand_of_path ha.2 hp, ?_⟩, hj⟩
      rw [expand_link, if_pos ⟨rfl, hs⟩]
    · exact absurd hm (by simp)
    · obtain ⟨n, hp, hs⟩ := h.home hm
      exact ⟨n, path_expand_of_path ha.2 hp, hs⟩
  · rw [expand_items]
    split_ifs
    · exact hf.nodup j
    · simp
    · exact h.nodup c j
  · rcases path_of_path_expand hb hp with ⟨hq, hc⟩ | ⟨rfl, m, rfl, hq, -⟩
    · rcases path_of_path_expand hb hp' with ⟨hq', -⟩ | ⟨hc', -⟩
      · exact h.level hq hq'
      · exact absurd hc' hc
    · rcases path_of_path_expand hb hp' with ⟨-, hc⟩ | ⟨-, m', rfl, hq', -⟩
      · exact absurd rfl hc
      · rw [h.level hq hq']

lemma expand_stores {k₀ : K} (ha : t.Leaf slot k₀ d a) (hb : t.Fresh b)
    {f : ℕ → List (K × V)} (hf : Rehashed slot d (t.items a (slot d k₀)) f) :
    (t.expand a (slot d k₀) b f).Stores k v ↔ t.Stores k v := by
  have hab : a ≠ b := by
    rintro rfl
    exact hb.not_on_path d ha.1
  constructor
  · rintro ⟨c, j, hm⟩
    rw [expand_items] at hm
    split_ifs at hm with hcb hc
    · exact ⟨a, _, ((hf.mem j k v).mp hm).1⟩
    · exact absurd hm (by simp)
    · exact ⟨c, j, hm⟩
  · rintro ⟨c, j, hm⟩
    by_cases hc : c = a ∧ j = slot d k₀
    · obtain ⟨rfl, rfl⟩ := hc
      refine ⟨b, slot (d + 1) k, ?_⟩
      rw [expand_items, if_pos rfl, hf.mem]
      exact ⟨hm, rfl⟩
    · refine ⟨c, j, ?_⟩
      rw [expand_items, if_neg, if_neg hc]
      · exact hm
      · rintro rfl
        rw [hb.items] at hm
        cases hm

lemma expand_leaf {f : ℕ → List (K × V)} {k₀ : K} (ha : t.Leaf slot k₀ d a) (hb : t.Fresh b) :
    (t.expand a (slot d k₀) b f).Leaf slot k₀ (d + 1) b := by
  have hab : b ≠ a := by
    rintro rfl
    exact hb.not_on_path d ha.1
  refine ⟨path_succ.mpr ⟨a, path_expand_of_path ha.2 ha.1, ?_⟩, ?_⟩
  · rw [expand_link, if_pos ⟨rfl, rfl⟩]
  · rw [expand_link, if_neg fun hc => hab hc.1]
    exact hb.link _

end Trie

end ObjectCache.Lib
