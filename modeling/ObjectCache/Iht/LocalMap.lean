import ObjectCache.Lib.HashTrie
import ObjectCache.Iht.Local
import Mathlib.Tactic.Ring

/-! `iht_carumap` is a finite map as long as its rehashes put every key where the next level looks
for it. -/

set_option linter.unusedSectionVars false

namespace ObjectCache.Iht.Local

open Lib Cache

variable {K V : Type} {c : Config K} {t : Table K V} {p i j : ℕ} {k : K} {v : V}

/-! ### The table as a trie -/

/-- The bucket a lookup reads on each level. -/
def Config.slot (c : Config K) (d : ℕ) (k : K) : ℕ := c.levelHash k (d + 2) (c.plist_size * 2 ^ d)

def Bucket.child : Bucket K V → Option ℕ
  | ⟨.plist p, .p_unlocked⟩ => some p
  | _ => none

def Table.trie (t : Table K V) : Trie ℕ K V where
  root := t.root
  link p i := (t.buckets p i).child
  items p i := (t.buckets p i).base.pairs

/-- A bucket that can be acquired. -/
structure Bucket.Open (b : Bucket K V) : Prop where
  lock : b.lock = .e_unlocked
  base : ∀ p, b.base ≠ .plist p

structure Inv (c : Config K) (t : Table K V) : Prop where
  placed : t.trie.Placed c.slot
  bucket : ∀ p i, (t.buckets p i).Open ∨ ∃ q < t.unmade, t.buckets p i = ⟨.plist q, .p_unlocked⟩
  unmade : ∀ p i, t.unmade ≤ p → t.buckets p i = ⟨.null, .e_unlocked⟩
  root : t.root < t.unmade

lemma Bucket.Open.child {b : Bucket K V} (h : b.Open) : b.child = none := by
  obtain ⟨base, lock⟩ := b
  obtain rfl : lock = .e_unlocked := h.lock
  cases base <;> rfl

@[simp] lemma pairs_elist (e : EList K V) : (Base.elist e).pairs = e := rfl

lemma open_elist (e : EList K V) : (⟨.elist e, .e_unlocked⟩ : Bucket K V).Open :=
  ⟨rfl, fun _ h => by cases h⟩

lemma open_null : (⟨.null, .e_unlocked⟩ : Bucket K V).Open :=
  ⟨rfl, fun _ h => by cases h⟩

lemma setBucket_buckets (b : Bucket K V) (q : ℕ) :
    (t.setBucket p i b).buckets q j = if q = p ∧ j = i then b else t.buckets q j := by
  by_cases hq : q = p
  · subst hq
    by_cases hj : j = i
    · simp [Table.setBucket, hj]
    · simp [Table.setBucket, hj]
  · simp [Table.setBucket, hq]

lemma setBucket_self : t.setBucket p i (t.buckets p i) = t := by
  simp [Table.setBucket]

lemma trie_setBucket {b : Bucket K V} (hb : b.Open) (h : t.trie.link p i = none) :
    (t.setBucket p i b).trie = t.trie.setItems p i b.base.pairs := by
  refine Trie.ext rfl ?_ ?_
  · funext q j
    simp only [Table.trie, Trie.setItems, setBucket_buckets]
    split_ifs with hq
    · obtain ⟨rfl, rfl⟩ := hq
      exact hb.child.trans h.symm
    · rfl
  · funext q j
    rw [Trie.setItems_items]
    simp only [Table.trie, setBucket_buckets]
    split_ifs <;> rfl

lemma Inv.setBucket (h : Inv c t) {b : Bucket K V} (hb : b.Open) (hp : p < t.unmade)
    (hplaced : (t.setBucket p i b).trie.Placed c.slot) : Inv c (t.setBucket p i b) where
  placed := hplaced
  bucket q j := by
    rw [setBucket_buckets]
    split_ifs
    · exact .inl hb
    · exact h.bucket q j
  unmade q j hq := by
    have hq' : t.unmade ≤ q := hq
    rw [setBucket_buckets, if_neg]
    · exact h.unmade q j hq
    · omega
  root := h.root

lemma Inv.link_lt (h : Inv c t) {q : ℕ} (hl : t.trie.link p i = some q) : q < t.unmade := by
  rcases h.bucket p i with ho | ⟨r, hr, hb⟩
  · exact absurd (ho.child.symm.trans hl) (by simp)
  · have hc : (t.buckets p i).child = some q := hl
    rw [hb] at hc
    cases hc
    exact hr

lemma Inv.path_lt (h : Inv c t) {d : ℕ} (hp : t.trie.path c.slot k d = some p) : p < t.unmade := by
  cases d with
  | zero =>
    cases hp
    exact h.root
  | succ d =>
    obtain ⟨q, -, hl⟩ := Trie.path_succ.mp hp
    exact h.link_lt hl

/-! ### The descent -/

/-- `curr`, `depth` and `count` stand on one level of the path of `k`. -/
structure Stands (c : Config K) (t : Table K V) (k : K) (d curr depth count : ℕ) : Prop where
  path : t.trie.path c.slot k d = some curr
  depth : depth = d + 1
  count : count = c.plist_size * 2 ^ d

lemma Stands.root : Stands c t k 0 t.root 1 c.plist_size := ⟨rfl, rfl, by simp⟩

lemma Stands.bucket {d curr depth count : ℕ} (h : Stands c t k d curr depth count) :
    c.levelHash k (depth + 1) count = c.slot d k := by
  rw [h.depth, h.count]
  rfl

lemma Stands.succ {d curr depth count q : ℕ} (h : Stands c t k d curr depth count)
    (hl : t.trie.link curr (c.slot d k) = some q) :
    Stands c t k (d + 1) q (depth + 1) (count * 2) := by
  refine ⟨Trie.path_succ.mpr ⟨curr, h.path, hl⟩, by rw [h.depth], ?_⟩
  rw [h.count, pow_succ, mul_assoc]

/-- A descent ends at the leaf of its key. -/
lemma descend_leaf (h : Inv c t) {fuel : ℕ} {d curr depth count curr' depth' count' : ℕ}
    (hs : Stands c t k d curr depth count)
    (hd : descend c t k fuel curr depth count = some (curr', depth', count')) :
    ∃ d', Stands c t k d' curr' depth' count' ∧ t.trie.Leaf c.slot k d' curr' ∧
      (t.buckets curr' (c.slot d' k)).Open := by
  induction fuel generalizing d curr depth count with
  | zero => simp [descend] at hd
  | succ fuel ih =>
    rw [descend, hs.bucket] at hd
    rcases h.bucket curr (c.slot d k) with ho | ⟨q, -, hb⟩
    · rw [ho.lock] at hd
      simp only [acquire, Option.some.injEq, Prod.mk.injEq] at hd
      obtain ⟨rfl, rfl, rfl⟩ := hd
      exact ⟨d, hs, ⟨hs.path, ho.child⟩, ho⟩
    · rw [hb] at hd
      refine ih (hs.succ ?_) hd
      simp only [Table.trie, hb, Bucket.child]

/-! ### Rehash -/

lemma place_other {pcount pdepth q : ℕ} (hq : q ≠ p) (l : EList K V) :
    ∀ t : Table K V, (place c pcount pdepth p t l).buckets q j = t.buckets q j := by
  induction l with
  | nil => exact fun t => rfl
  | cons kv l ih =>
    intro t
    rw [place, ih, setBucket_buckets, if_neg fun h => hq h.1]

lemma place_root {pcount pdepth : ℕ} (l : EList K V) :
    ∀ t : Table K V, (place c pcount pdepth p t l).root = t.root ∧
      (place c pcount pdepth p t l).unmade = t.unmade := by
  induction l with
  | nil => exact fun t => ⟨rfl, rfl⟩
  | cons kv l ih => exact fun t => ih _

lemma place_open {pcount pdepth : ℕ} (l : EList K V) :
    ∀ t : Table K V, (t.buckets p j).Open → ((place c pcount pdepth p t l).buckets p j).Open := by
  induction l with
  | nil => exact fun t h => h
  | cons kv l ih =>
    intro t h
    refine ih _ ?_
    rw [setBucket_buckets]
    split_ifs
    · exact open_elist _
    · exact h

lemma place_pairs {pcount pdepth : ℕ} (l : EList K V) :
    ∀ t : Table K V, ((place c pcount pdepth p t l).buckets p j).base.pairs =
      (t.buckets p j).base.pairs ++
        l.filter fun kv => c.levelHash kv.1 (pdepth + 1) pcount = j := by
  induction l with
  | nil => exact fun t => (List.append_nil _).symm
  | cons kv l ih =>
    intro t
    rw [place, ih, setBucket_buckets]
    by_cases hj : j = c.levelHash kv.1 (pdepth + 1) pcount
    · subst hj
      simp [Base.pairs, EList.elist_insert]
    · simp [hj, Ne.symm hj]

/-- A list of pairs as `rehash` spreads it over the new PList. -/
def spread (c : Config K) (count depth : ℕ) (l : EList K V) (j : ℕ) : EList K V :=
  l.filter fun kv => c.levelHash kv.1 (depth + 1) count = j

/-- The table after a rehash and the publication of its PList. -/
def Table.grow (t : Table K V) (c : Config K) (curr count depth bucket : ℕ) : Table K V :=
  (rehash c t curr count depth bucket).1.setBucket curr bucket
    ⟨.plist (rehash c t curr count depth bucket).2, .p_unlocked⟩

section Grow

variable {curr count depth bucket : ℕ}

lemma rehash_buckets_other {q : ℕ} (hq : q ≠ t.unmade) :
    (rehash c t curr count depth bucket).1.buckets q j = t.buckets q j := by
  rw [rehash]
  refine (place_other hq _ _).trans ?_
  simp [Table.make, hq]

lemma rehash_buckets_open : ((rehash c t curr count depth bucket).1.buckets t.unmade j).Open := by
  refine place_open _ _ ?_
  simp only [Function.update_self]
  exact open_null

lemma rehash_pairs : ((rehash c t curr count depth bucket).1.buckets t.unmade j).base.pairs =
    spread c count depth (t.buckets curr bucket).base.pairs j := by
  rw [rehash]
  refine (place_pairs _ _).trans ?_
  simp [Table.make, Base.pairs, spread]

lemma rehash_root : (rehash c t curr count depth bucket).1.root = t.root ∧
    (rehash c t curr count depth bucket).1.unmade = t.unmade + 1 :=
  place_root _ _

lemma Inv.fresh (h : Inv c t) : t.trie.Fresh t.unmade where
  root := h.root.ne'
  unlinked q j hl := absurd (h.link_lt hl) (by omega)
  link j := by
    simp only [Table.trie, h.unmade _ j le_rfl]
    rfl
  items j := by
    simp only [Table.trie, h.unmade _ j le_rfl]
    rfl

lemma trie_grow (h : Inv c t) (hc : curr ≠ t.unmade) :
    (t.grow c curr count depth bucket).trie = t.trie.expand curr bucket t.unmade
      (spread c count depth (t.buckets curr bucket).base.pairs) := by
  refine Trie.ext rehash_root.1 ?_ ?_
  · funext q j
    rw [Trie.expand_link]
    simp only [Table.trie, Table.grow, setBucket_buckets]
    split_ifs with hq
    · rfl
    · by_cases hu : q = t.unmade
      · rw [hu, rehash_buckets_open.child, h.unmade _ j le_rfl]
        rfl
      · rw [rehash_buckets_other hu]
  · funext q j
    rw [Trie.expand_items]
    simp only [Table.trie, Table.grow, setBucket_buckets]
    split_ifs with hq hu hu
    · exact absurd (hq.1.symm.trans hu) hc
    · rfl
    · rw [hu, rehash_pairs]
    · rw [rehash_buckets_other hu]

lemma Inv.grow (h : Inv c t) (hc : curr < t.unmade)
    (hp : (t.grow c curr count depth bucket).trie.Placed c.slot) :
    Inv c (t.grow c curr count depth bucket) := by
  have hroot : (rehash c t curr count depth bucket).1.root = t.root ∧
      (rehash c t curr count depth bucket).1.unmade = t.unmade + 1 := rehash_root
  refine ⟨hp, fun q j => ?_, fun q j hq => ?_, ?_⟩
  · simp only [Table.grow, setBucket_buckets]
    split_ifs with hqc
    · exact .inr ⟨t.unmade, by simp [Table.setBucket, hroot.2], rfl⟩
    · by_cases hu : q = t.unmade
      · rw [hu]
        exact .inl rehash_buckets_open
      · rw [rehash_buckets_other hu]
        refine (h.bucket q j).imp_right ?_
        rintro ⟨r, hr, hb⟩
        exact ⟨r, by simp only [Table.setBucket, hroot.2]; omega, hb⟩
  · have hq' : t.unmade + 1 ≤ q := by
      rw [← hroot.2]
      exact hq
    simp only [Table.grow, setBucket_buckets]
    rw [if_neg (by omega), rehash_buckets_other (by omega)]
    exact h.unmade q j (by omega)
  · simp only [Table.grow, Table.setBucket, hroot.1, hroot.2]
    exact h.root.trans (Nat.lt_succ_self _)

end Grow

/-- Rehashing into aligned places is the expansion of the trie. -/
lemma rehashed_spread (h : Inv c t) {d curr depth count : ℕ} (hs : Stands c t k d curr depth count)
    (ha : ∀ kv ∈ (t.buckets curr (c.slot d k)).base.pairs,
      c.levelHash kv.1 (depth + 1) count = c.levelHash kv.1 (depth + 2) (count * 2)) :
    Trie.Rehashed c.slot d (t.trie.items curr (c.slot d k))
      (spread c count depth (t.buckets curr (c.slot d k)).base.pairs) where
  mem j k' v' := by
    have hnext : ∀ k', c.slot (d + 1) k' = c.levelHash k' (depth + 2) (count * 2) := by
      intro k'
      rw [hs.depth, hs.count, Config.slot, pow_succ, mul_assoc]
    rw [spread, List.mem_filter, decide_eq_true_iff]
    refine and_congr_right fun hm => ?_
    rw [ha _ hm, hnext]
  nodup j := (h.placed.nodup curr _).sublist ((List.filter_sublist).map Prod.fst)

/-! ### The calls -/

variable [DecidableEq K]

/-- The table holds the map. -/
structure Holds (c : Config K) (t : Table K V) (m : K → Option V) : Prop where
  inv : Inv c t
  map : t.trie.Represents m

lemma Holds.empty : Holds c (.empty : Table K V) fun _ => none where
  inv := by
    refine ⟨⟨fun hl => ?_, fun hm => ?_, fun p i => ?_, fun {k k' d d' a} hp hp' => ?_⟩,
      fun p i => .inl open_null, fun p i _ => rfl, Nat.one_pos⟩
    · cases hl
    · cases hm
    · exact List.nodup_nil
    · have hz : ∀ {k d}, (Table.empty : Table K V).trie.path c.slot k d = some a → d = 0 := by
        intro k d h
        cases d with
        | zero => rfl
        | succ d =>
          obtain ⟨b, -, hl⟩ := Trie.path_succ.mp h
          cases hl
      rw [hz hp, hz hp']
  map k v := by
    refine iff_of_false (by simp) ?_
    rintro ⟨p, i, hm⟩
    cases hm

section Leaf

variable {m : K → Option V} {d curr : ℕ}

lemma Holds.nodup (h : Holds c t m) : ((t.buckets p i).base.pairs.map Prod.fst).Nodup :=
  h.inv.placed.nodup p i

/-- At its leaf the list answers for the map. -/
lemma Holds.lookup (h : Holds c t m) (hl : t.trie.Leaf c.slot k d curr) :
    (t.buckets curr (c.slot d k)).base.pairs.lookup k = m k := by
  have hiff : ∀ v, EList.lookup (t.buckets curr (c.slot d k)).base.pairs k = some v ↔
      m k = some v := by
    intro v
    rw [EList.lookup_eq_some h.nodup, h.map k v, h.inv.placed.stores_iff hl]
    rfl
  exact Option.ext hiff

/-- New pairs for one key at its leaf. -/
lemma Holds.setBucket (h : Holds c t m) (hl : t.trie.Leaf c.slot k d curr) {b : Bucket K V}
    (hb : b.Open) {m' : K → Option V} (hn : (b.base.pairs.map Prod.fst).Nodup)
    (hrest : ∀ k' v, k' ≠ k →
      ((k', v) ∈ b.base.pairs ↔ (k', v) ∈ (t.buckets curr (c.slot d k)).base.pairs))
    (hnew : ∀ v, (k, v) ∈ b.base.pairs ↔ m' k = some v) (hsame : ∀ k', k' ≠ k → m' k' = m k') :
    Holds c (t.setBucket curr (c.slot d k) b) m' := by
  have htrie := trie_setBucket hb hl.2
  have hplaced : (t.trie.setItems curr (c.slot d k) b.base.pairs).Placed c.slot := by
    refine h.inv.placed.setItems hl.2 (fun k' v hm => ?_) hn
    by_cases hk : k' = k
    · subst hk
      exact ⟨d, hl.1, rfl⟩
    · exact h.inv.placed.home ((hrest k' v hk).mp hm)
  refine ⟨h.inv.setBucket hb (h.inv.path_lt hl.1) (by rwa [htrie]), ?_⟩
  rw [htrie]
  exact Trie.setItems_represents h.map hl hplaced hrest hnew hsame

lemma Holds.keep (h : Holds c t m) (ho : (t.buckets curr (c.slot d k)).Open) :
    Holds c (t.setBucket curr (c.slot d k) ⟨(t.buckets curr (c.slot d k)).base, .e_unlocked⟩) m := by
  have hsame : (⟨(t.buckets curr (c.slot d k)).base, .e_unlocked⟩ : Bucket K V) =
      t.buckets curr (c.slot d k) := by
    rw [← ho.lock]
  rw [hsame, setBucket_self]
  exact h

lemma Holds.add (h : Holds c t m) (hl : t.trie.Leaf c.slot k d curr) (hm : m k = none) (v : V) :
    Holds c (t.setBucket curr (c.slot d k) ⟨.elist (EList.elist_insert
      (t.buckets curr (c.slot d k)).base.pairs k v), .e_unlocked⟩)
      ((MapOp.insert k v).apply m) := by
  have happly : (MapOp.insert k v).apply m = Function.update m k (some v) := by
    simp [MapOp.apply, hm]
  have hnone := (h.lookup hl).trans hm
  refine h.setBucket hl (open_elist _) (EList.nodup_elist_insert h.nodup hnone) (fun k' v' hk => ?_)
    (fun v' => ?_) fun k' hk => ?_
  · simp [EList.elist_insert, hk]
  · have hnot : ∀ w, (k, w) ∉ (t.buckets curr (c.slot d k)).base.pairs := by
      intro w hw
      exact EList.lookup_eq_none.mp hnone (List.mem_map_of_mem hw)
    simp [EList.elist_insert, happly, hnot, eq_comm]
  · rw [happly, Function.update_of_ne hk]

lemma Holds.take (h : Holds c t m) (hl : t.trie.Leaf c.slot k d curr) :
    Holds c (t.setBucket curr (c.slot d k) ⟨.elist (EList.remove
      (t.buckets curr (c.slot d k)).base.pairs k), .e_unlocked⟩)
      ((MapOp.remove k : MapOp K V).apply m) := by
  refine h.setBucket hl (open_elist _) (EList.nodup_remove h.nodup) (fun k' v' hk => ?_)
    (fun v' => ?_) fun k' hk => ?_
  · exact (EList.mem_remove h.nodup k' v').trans (and_iff_left hk)
  · simp only [pairs_elist, MapOp.apply, Function.update_self]
    rw [EList.mem_remove h.nodup]
    simp
  · exact Function.update_of_ne hk _ _

end Leaf

lemma get_holds {m : K → Option V} (h : Holds c t m) {fuel : ℕ} {t' : Table K V} {ret : Option V}
    (hg : get c t k fuel = some (t', ret)) : ret = m k ∧ Holds c t' m := by
  obtain ⟨⟨curr, depth, count⟩, hd, hg⟩ := Option.bind_eq_some_iff.mp hg
  obtain ⟨d, hs, hl, ho⟩ := descend_leaf h.inv .root hd
  have hret := h.lookup hl
  have hkeep := h.keep ho
  simp only [hs.bucket] at hg
  cases hb : (t.buckets curr (c.slot d k)).base with
  | null =>
    rw [hb] at hg hkeep hret
    simp only [Option.some.injEq, Prod.mk.injEq] at hg
    obtain ⟨rfl, rfl⟩ := hg
    exact ⟨hret, hkeep⟩
  | elist e =>
    rw [hb] at hg hkeep hret
    simp only [Option.some.injEq, Prod.mk.injEq] at hg
    obtain ⟨rfl, rfl⟩ := hg
    exact ⟨hret, hkeep⟩
  | plist q => exact absurd hb (ho.base q)

lemma remove_holds {m : K → Option V} (h : Holds c t m) {fuel : ℕ} {t' : Table K V}
    {ret : Option V} (hr : remove c t k fuel = some (t', ret)) :
    ret = m k ∧ Holds c t' ((MapOp.remove k : MapOp K V).apply m) := by
  obtain ⟨⟨curr, depth, count⟩, hd, hr⟩ := Option.bind_eq_some_iff.mp hr
  obtain ⟨d, hs, hl, ho⟩ := descend_leaf h.inv .root hd
  have hret := h.lookup hl
  have htake := h.take hl
  simp only [hs.bucket] at hr
  cases hb : (t.buckets curr (c.slot d k)).base with
  | null =>
    have hkeep := h.keep ho
    rw [hb] at hr hret hkeep
    simp only [Option.some.injEq, Prod.mk.injEq] at hr
    obtain ⟨rfl, rfl⟩ := hr
    refine ⟨hret, ?_⟩
    have hm : (MapOp.remove k : MapOp K V).apply m = m := by
      have hnone : m k = none := hret.symm
      rw [MapOp.apply, ← hnone]
      exact Function.update_eq_self k m
    rw [hm]
    exact hkeep
  | elist e =>
    rw [hb] at hr hret htake
    simp only [Option.some.injEq, Prod.mk.injEq] at hr
    obtain ⟨rfl, rfl⟩ := hr
    exact ⟨hret, htake⟩
  | plist q => exact absurd hb (ho.base q)

lemma Holds.grow {m : K → Option V} (h : Holds c t m) {d curr depth count : ℕ}
    (hs : Stands c t k d curr depth count) (hl : t.trie.Leaf c.slot k d curr)
    (ha : ∀ kv ∈ (t.buckets curr (c.slot d k)).base.pairs,
      c.levelHash kv.1 (depth + 1) count = c.levelHash kv.1 (depth + 2) (count * 2)) :
    Holds c (t.grow c curr count depth (c.slot d k)) m ∧
      Stands c (t.grow c curr count depth (c.slot d k)) k d curr depth count := by
  have hcurr := h.inv.path_lt hl.1
  have htrie : (t.grow c curr count depth (c.slot d k)).trie =
      t.trie.expand curr (c.slot d k) t.unmade
        (spread c count depth (t.buckets curr (c.slot d k)).base.pairs) := trie_grow h.inv hcurr.ne
  have hspread := rehashed_spread h.inv hs ha
  have hplaced := h.inv.placed.expand hl h.inv.fresh hspread
  rw [← htrie] at hplaced
  refine ⟨⟨h.inv.grow hcurr hplaced, fun k v => ?_⟩, ?_, hs.depth, hs.count⟩
  · rw [htrie, h.map k v]
    exact (Trie.expand_stores hl h.inv.fresh hspread).symm
  · rw [htrie]
    exact Trie.path_expand_of_path hl.2 hs.path

lemma insertLoop_holds {m : K → Option V} {fuel : ℕ} {t t' : Table K V} {ret : Option V}
    {d curr depth count : ℕ} (h : Holds c t m) (hs : Stands c t k d curr depth count)
    (ha : aligned c k fuel t curr depth count)
    (hi : insertLoop c k v fuel t curr depth count = some (t', ret)) :
    ret = m k ∧ Holds c t' ((MapOp.insert k v).apply m) := by
  induction fuel generalizing t d curr depth count with
  | zero => simp [insertLoop] at hi
  | succ fuel ih =>
    obtain ⟨⟨curr', depth', count'⟩, hd, hi⟩ := Option.bind_eq_some_iff.mp hi
    obtain ⟨d', hs', hl, ho⟩ := descend_leaf h.inv hs hd
    have hret := h.lookup hl
    simp only [aligned, hd, hs'.bucket, Bool.or_eq_true, Bool.and_eq_true, List.all_eq_true,
      decide_eq_true_eq] at ha
    simp only [hs'.bucket] at hi
    cases hb : (t.buckets curr' (c.slot d' k)).base with
    | null =>
      rw [hb] at hi hret
      simp only [Option.some.injEq, Prod.mk.injEq] at hi
      obtain ⟨rfl, rfl⟩ := hi
      have hadd := h.add hl hret.symm v
      rw [hb] at hadd
      exact ⟨hret, hadd⟩
    | elist e =>
      rw [hb] at hi hret ha
      simp only [pairs_elist] at hret ha
      dsimp only at hi
      split_ifs at hi with hfound hroom
      · simp only [Option.some.injEq, Prod.mk.injEq] at hi
        obtain ⟨rfl, rfl⟩ := hi
        have hkeep := h.keep ho
        rw [hb] at hkeep
        refine ⟨hret, ?_⟩
        have hm : (MapOp.insert k v).apply m = m := by
          rw [hret] at hfound
          rw [MapOp.apply, if_neg]
          simpa using Option.ne_none_iff_isSome.mpr hfound
        rwa [hm]
      · simp only [Option.some.injEq, Prod.mk.injEq] at hi
        obtain ⟨rfl, rfl⟩ := hi
        have hnone : e.lookup k = none := by simpa using hfound
        have hadd := h.add hl (hret.symm.trans hnone) v
        rw [hb] at hadd
        exact ⟨hnone.symm.trans hret, hadd⟩
      · have hnone : e.lookup k = none := by simpa using hfound
        obtain ⟨hmoved, hnext⟩ := ha.resolve_left (by simp [hnone, hroom])
        obtain ⟨hgrow, hstands⟩ := h.grow hs' hl (by rwa [hb])
        exact ih hgrow hstands hnext hi
    | plist q => exact absurd hb (ho.base q)

/-! ### Every sequence of calls -/

lemma call_holds {m : K → Option V} (h : Holds c t m) {fuel : ℕ} {op : MapOp K V}
    {ret : Option V} {t' : Table K V} (hx : exec c fuel t op = some (t', ret))
    (ha : alignedCall c fuel t op) : ret = m op.key ∧ Holds c t' (op.apply m) := by
  cases op with
  | insert k v => exact insertLoop_holds h .root ha hx
  | remove k => exact remove_holds h hx
  | contains k => exact get_holds h hx

/-- Calls none of which rehashes a key away from its path. -/
def AlignedCall (c : Config K) (t : Table K V) (op : MapOp K V) (ret : Option V)
    (t' : Table K V) : Prop :=
  ∃ fuel, exec c fuel t op = some (t', ret) ∧ alignedCall c fuel t op

theorem finiteMap_of_aligned (c : Config K) {l : List (MapOp K V × Option V)} {t : Table K V}
    (h : Calls (AlignedCall c) .empty l t) :
    Answers (fun _ => none) l ∧ t.trie.Placed c.slot := by
  have hcall : ∀ (t : Table K V) m op ret t', Holds c t m → AlignedCall c t op ret t' →
      ret = m op.key ∧ Holds c t' (op.apply m) := by
    rintro t m op ret t' hm ⟨fuel, hx, ha⟩
    exact call_holds hm hx ha
  obtain ⟨hanswers, m, hm⟩ := h.answers hcall _ .empty
  exact ⟨hanswers, hm.inv.placed⟩

/-! ### A rehash that hides a key -/

/-- The outcome of calls with so many rounds each, and whether all of them are aligned. -/
def execAll (c : Config K) (fuel : ℕ) :
    Table K V → List (MapOp K V) → Option (Table K V × List (MapOp K V × Option V) × Bool)
  | t, [] => some (t, [], true)
  | t, op :: ops => do
    let (t', ret) ← exec c fuel t op
    let (t', l, b) ← execAll c fuel t' ops
    return (t', (op, ret) :: l, alignedCall c fuel t op && b)

lemma calls_execAll {fuel : ℕ} {ops : List (MapOp K V)} {t' : Table K V}
    {l : List (MapOp K V × Option V)} {b : Bool} (h : execAll c fuel t ops = some (t', l, b)) :
    Calls (Call c) t l t' ∧ (b → Calls (AlignedCall c) t l t') := by
  induction ops generalizing t l b with
  | nil =>
    cases h
    exact ⟨.nil, fun _ => .nil⟩
  | cons op ops ih =>
    obtain ⟨⟨t₁, ret⟩, hx, h⟩ := Option.bind_eq_some_iff.mp h
    obtain ⟨⟨t₂, l₂, b₂⟩, hrest, h⟩ := Option.bind_eq_some_iff.mp h
    simp only [Option.pure_def, Option.some.injEq, Prod.mk.injEq] at h
    obtain ⟨rfl, rfl, rfl⟩ := h
    obtain ⟨hcalls, haligned⟩ := ih hrest
    refine ⟨.cons ⟨fuel, hx⟩ hcalls, fun hb => ?_⟩
    rw [Bool.and_eq_true] at hb
    exact .cons ⟨fuel, hx, hb.1⟩ (haligned hb.2)

/-- One pair to a list, one bucket at the root, and the identity for `std::hash`. -/
def single : Config (BitVec 64) := ⟨1, 1, le_rfl, le_rfl, id⟩

/-- The second insertion rehashes 0 into bucket 0 of the new PList, where it is looked for. -/
theorem finiteMap_single : ∃ l t, Calls (AlignedCall single) (.empty : Table (BitVec 64) ℕ) l t ∧
    l.map Prod.snd = [none, none, some 10] ∧ Answers (fun _ => none) l := by
  have hrun : (execAll single 4 (.empty : Table (BitVec 64) ℕ)
      [.insert 0 10, .insert 1 11, .contains 0]).map (fun x => (x.2.1.map Prod.snd, x.2.2)) =
        some ([none, none, some 10], true) := by decide +kernel
  obtain ⟨⟨t, l, b⟩, hx, hl⟩ := Option.map_eq_some_iff.mp hrun
  obtain ⟨hl, rfl⟩ := Prod.mk.inj hl
  have hc := (calls_execAll hx).2 rfl
  exact ⟨l, t, hc, hl, (finiteMap_of_aligned single hc).1⟩

/-- The second insertion rehashes 1 into bucket 0 of the new PList, and it is looked for in
bucket 1. -/
theorem not_finiteMap_single : ¬ ∀ l t, Calls (Call single) (.empty : Table (BitVec 64) ℕ) l t →
    Answers (fun _ => none) l := by
  intro h
  have hrun : (execAll single 4 (.empty : Table (BitVec 64) ℕ)
      [.insert 1 10, .insert 4 40, .contains 1]).map (fun x => x.2.1) =
        some [(.insert 1 10, none), (.insert 4 40, none), (.contains 1, none)] := by decide +kernel
  obtain ⟨⟨t, l, b⟩, hx, rfl⟩ := Option.map_eq_some_iff.mp hrun
  have hanswer : none = some 10 := (h _ t (calls_execAll hx).1).2.2.1
  cases hanswer

end ObjectCache.Iht.Local
