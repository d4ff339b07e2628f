import ObjectCache.Btree.Roots

/-! Calls one after another on one tree: which of them stay inside the arrays, and what they answer. -/

namespace ObjectCache.Btree.Tree

open Lib

variable {V : Type} {fenced : Prop} {d h n i fuel it_counter : ℕ} {lo hi key : ℤ}
  {M : Meaning V} {e : Effect V} {root : Root V} {op : MapOp ℤ V}

/-- The leaf that the separators lead to. -/
def LeafAt (d : ℕ) (key : ℤ) : (h : ℕ) → Sub V h → Leaf V → Prop
  | 0, (l : Leaf V), leaf => l = leaf
  | h + 1, (node : Node (Sub V h)), leaf => ∃ n i child, Ordered d node.keys n ∧ Route node.keys n key i ∧
      node.ptrs i = some child ∧ LeafAt d key h child leaf

lemma Ordered.unique {n' : ℕ} {keys : Slots ℤ} (h : Ordered d keys n) (h' : Ordered d keys n') : n = n' := by
  have hc := h.count
  have hc' := h'.count
  rcases Nat.lt_trichotomy n n' with hlt | heq | hgt
  · have hv := h'.valid n hlt
    rw [h.free n (Nat.le_refl n) (by omega)] at hv
    omega
  · exact heq
  · have hv := h.valid n' hgt
    rw [h'.free n' (Nat.le_refl n') (by omega)] at hv
    omega

lemma LeafAt.unique {t : Sub V h} {leaf leaf' : Leaf V} (hl : LeafAt d key h t leaf)
    (hl' : LeafAt d key h t leaf') : leaf = leaf' := by
  induction h with
  | zero => exact Eq.trans (Eq.symm hl) hl'
  | succ h ih =>
    obtain ⟨n, i, child, ho, hr, hc, hl⟩ := hl
    obtain ⟨n', i', child', ho', hr', hc', hl'⟩ := hl'
    obtain rfl := ho.unique ho'
    obtain rfl := hr.unique hr'
    rw [hc, Option.some.injEq] at hc'
    subst hc'
    exact ih hl hl'

/-- The leaf where a key goes. -/
structure Leads (fenced : Prop) (d : ℕ) (key : ℤ) (h : ℕ) (t : Sub V h) (leaf : Leaf V) : Prop where
  leafAt : LeafAt d key h t leaf
  holds : ∃ n lo hi, leaf.Holds d lo hi n
  inRange : fenced → leaf.keyInRange key = true
  pairs : ∀ v, (key, v) ∈ Tree.pairs d h t ↔ (key, v) ∈ leaf.content d

lemma Leads.leaf {leaf : Leaf V} (hok : Tree.Ok fenced d 0 lo hi leaf) (hlo : lo < key) (hhi : key ≤ hi) :
    Leads fenced d key 0 leaf leaf := by
  obtain ⟨hf, n, hn⟩ := hok
  refine ⟨rfl, ⟨n, lo, hi, hn⟩, fun hx => ?_, fun v => Iff.rfl⟩
  rw [keyInRange_iff, (hf hx).1, (hf hx).2]
  exact ⟨hlo, hhi⟩

lemma Leads.node {node : Node (Sub V h)} {child : Sub V h} {leaf : Leaf V}
    (hn : Holds d (Tree.Ok fenced d h) lo hi n node) (hr : Route node.keys n key i)
    (hc : node.ptrs i = some child) (hl : Leads fenced d key h child leaf) :
    Leads fenced d key (h + 1) node leaf := by
  have hcount := hn.count
  have hle := hr.le
  refine ⟨⟨n, i, child, hn.toOrdered, hr, hc, hl.leafAt⟩, hl.holds, hl.inRange, fun v => ?_⟩
  have hall := content_one (C := Tree.pairs d h) (show i ≤ SIZE d by omega) hc
  rw [← hl.pairs]
  show (key, v) ∈ node.content d (Tree.pairs d h) ↔ _
  rw [hall]
  exact ⟨fun hx => hx.resolve_right fun hx => hn.rest_ne hr hx rfl, .inl⟩

/-- The call is `contains` and the leaf for its key is full of smaller keys. -/
def PastFull (d : ℕ) (root : Root V) : MapOp ℤ V → Prop
  | .contains key => ∃ leaf, LeafAt d key root.height root.start leaf ∧
      (root.height ≠ 0 → leaf.keyInRange key = true) ∧ ∀ i < SIZE d, leaf.keys i < key
  | _ => False

/-- The outcome of calls with so many rounds each. -/
def execAll [IntCast V] (d fuel : ℕ) :
    Root V → List (MapOp ℤ V) → Except Fault (Root V × List (MapOp ℤ V × Option V))
  | root, [] => return (root, [])
  | root, op :: ops => do
    let r ← call d fuel root op
    let s ← execAll d fuel r.1 ops
    return (s.1, (op, r.2) :: s.2)

/-- A call with a valid key. -/
def ValidCall [IntCast V] (d : ℕ) (root : Root V) (op : MapOp ℤ V) (ret : Option V) (root' : Root V) : Prop :=
  (INT_MIN < op.key ∧ op.key < SENTINEL) ∧ ∃ fuel, call d fuel root op = .ok (root', ret)

lemma calls_execAll [IntCast V] {ops : List (MapOp ℤ V)} {root' : Root V} {l : List (MapOp ℤ V × Option V)}
    (hkeys : ∀ op ∈ ops, INT_MIN < op.key ∧ op.key < SENTINEL)
    (h : execAll d fuel root ops = .ok (root', l)) : Calls (ValidCall d) root l root' := by
  induction ops generalizing root l with
  | nil =>
    cases h
    exact .nil
  | cons op ops ih =>
    rw [execAll] at h
    cases hc : call d fuel root op with
    | error x =>
      rw [hc] at h
      cases h
    | ok r =>
      rw [hc] at h
      cases hr : execAll d fuel r.1 ops with
      | error x =>
        have hx : (do let s ← execAll d fuel r.1 ops; return (s.1, (op, r.2) :: s.2) :
            Except Fault (Root V × List (MapOp ℤ V × Option V))) = .ok (root', l) := h
        rw [hr] at hx
        cases hx
      | ok t =>
        have hx : (do let s ← execAll d fuel r.1 ops; return (s.1, (op, r.2) :: s.2) :
            Except Fault (Root V × List (MapOp ℤ V × Option V))) = .ok (root', l) := h
        rw [hr] at hx
        cases hx
        exact .cons ⟨hkeys op (.head ops), fuel, hc⟩ (ih (fun o ho => hkeys o (.tail op ho)) hr)

/-- The tree stands for the map. -/
structure Stands (d : ℕ) (root : Root V) (m : ℤ → Option V) : Prop where
  ok : root.Ok True d
  pairs : ∀ k v, (k, v) ∈ root.pairs d ↔ m k = some v

lemma Stands.new [IntCast V] : Stands d (Root.new : Root V) fun _ => none := by
  refine ⟨Root.new_ok, fun k v => ⟨fun hx => ?_, fun hx => by cases hx⟩⟩
  obtain ⟨i, hi, hne, -⟩ : ∃ i < SIZE d, SENTINEL ≠ SENTINEL ∧ _ := hx
  exact absurd rfl hne

lemma Stands.inserts {m : ℤ → Option V} {root' : Root V} {value : V} {v : Option V} (h : Stands d root m)
    (hok : root'.Ok True d) (hm : Inserts key value (root.pairs d) v (root'.pairs d)) :
    v = m key ∧ Stands d root' ((MapOp.insert key value).apply m) := by
  rcases hm with ⟨w, hw, rfl, hsame⟩ | ⟨hnone, rfl, hnew⟩
  · have hkey := (h.pairs key w).mp hw
    refine ⟨hkey.symm, hok, fun k u => ?_⟩
    rw [hsame, h.pairs, MapOp.apply, hkey]
    rfl
  · have hkey : m key = none := by
      cases hmk : m key with
      | none => rfl
      | some w => exact absurd ((h.pairs key w).mpr hmk) (hnone w)
    refine ⟨hkey.symm, hok, fun k u => ?_⟩
    rw [hnew, Set.mem_insert_iff, h.pairs, MapOp.apply, hkey, Option.isNone_none, if_pos rfl,
      Function.update_apply, Prod.mk.injEq]
    by_cases hk : k = key
    · rw [if_pos hk, hk, hkey, Option.some.injEq]
      constructor
      · rintro (⟨-, rfl⟩ | hu)
        · rfl
        · cases hu
      · exact fun hu => .inl ⟨rfl, hu.symm⟩
    · rw [if_neg hk]
      exact ⟨fun hu => hu.resolve_left fun hu => hk hu.1, .inr⟩

/-- No lookup above a full leaf, and no update while the node at the top is empty over a full child. -/
def Safe (d : ℕ) (root : Root V) (op : MapOp ℤ V) : Prop :=
  ¬ PastFull d root op ∧ (op = .contains op.key ∨ ¬ Stuck d root)

end ObjectCache.Btree.Tree
