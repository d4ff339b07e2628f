import ObjectCache.Iht.LocalThreads

/-! Under its locks `iht_carumap` is a map of concurrent calls, as long as its rehashes put every key where the
next level looks for it. -/

set_option linter.unusedSectionVars false

namespace ObjectCache.Iht.Local

open Lib

variable {K V T : Type}

/-! ### The table without its locks -/

def Bucket.settled : Bucket K V → Bucket K V
  | ⟨.plist p, _⟩ => ⟨.plist p, .p_unlocked⟩
  | ⟨b, _⟩ => ⟨b, .e_unlocked⟩

def Table.settled (t : Table K V) : Table K V := { t with buckets := fun p i => (t.buckets p i).settled }

variable {c : Config K} {m m' : Table K V} {p q i j : ℕ} {b : Base K V} {l : LockState} {e : EList K V} {k : K}

lemma settled_base (b : Bucket K V) : b.settled.base = b.base := by
  obtain ⟨base, lock⟩ := b
  cases base <;> rfl

lemma settled_plist {b : Bucket K V} (h : b.base = .plist q) : b.settled = ⟨.plist q, .p_unlocked⟩ := by
  obtain ⟨base, lock⟩ := b
  obtain rfl : base = .plist q := h
  rfl

lemma settled_open {b : Bucket K V} (h : ∀ q, b.base ≠ .plist q) : b.settled = ⟨b.base, .e_unlocked⟩ := by
  obtain ⟨base, lock⟩ := b
  cases base with
  | plist q => exact absurd rfl (h q)
  | _ => rfl

lemma Bucket.Open.settled {b : Bucket K V} (h : b.Open) : b.settled = b := by
  rw [settled_open h.base, ← h.lock]

lemma settled_setBucket (b : Bucket K V) : (m.setBucket p i b).settled = m.settled.setBucket p i b.settled := by
  have hbuckets : (m.setBucket p i b).settled.buckets = (m.settled.setBucket p i b.settled).buckets := by
    funext q j
    rw [setBucket_buckets]
    simp only [Table.settled, setBucket_buckets]
    split_ifs <;> rfl
  exact congrArg (fun buckets => ({ m with buckets := buckets } : Table K V)) hbuckets

lemma settled_setLock : (m.setLock p i l).settled = m.settled := by
  rw [Table.setLock, settled_setBucket]
  have hsame : (⟨(m.buckets p i).base, l⟩ : Bucket K V).settled = m.settled.buckets p i := by
    cases hb : (m.buckets p i).base with
    | plist q => exact (settled_plist hb).symm
    | null | elist e =>
      have hopen : ∀ q, (m.buckets p i).base ≠ .plist q := by
        rw [hb]
        simp
      refine Eq.trans ?_ (settled_open hopen).symm
      rw [hb]
      rfl
  rw [hsame, setBucket_self]

lemma settled_setBase (hb : ∀ q, b ≠ .plist q) :
    (m.setBase p i b).settled = m.settled.setBucket p i ⟨b, .e_unlocked⟩ := by
  rw [Table.setBase, settled_setBucket, settled_open hb]

lemma settled_place {pcount pdepth : ℕ} (source : EList K V) : ∀ m : Table K V,
    (place c pcount pdepth p m source).settled = place c pcount pdepth p m.settled source := by
  induction source with
  | nil => exact fun m => rfl
  | cons kv source ih =>
    intro m
    rw [place, ih, settled_setBucket, place]
    simp only [Table.settled, settled_base]
    rfl

lemma settled_make : m.make.1.settled = m.settled.make.1 := by
  have hbuckets : m.make.1.settled.buckets = m.settled.make.1.buckets := by
    funext q j
    simp only [Table.settled, Table.make]
    by_cases hq : q = m.unmade
    · subst hq
      simp only [Function.update_self]
      rfl
    · simp only [Function.update_of_ne hq]
  exact congrArg (fun buckets => ({ m.make.1 with buckets := buckets } : Table K V)) hbuckets

lemma settled_rehash {curr count depth : ℕ} : ((rehash c m curr count depth i).1.setBase curr i
    (.plist (rehash c m curr count depth i).2)).settled = m.settled.grow c curr count depth i := by
  rw [Table.setBase, settled_setBucket, Table.grow]
  have hsource : (m.settled.buckets curr i).base.pairs = (m.buckets curr i).base.pairs := by
    simp only [Table.settled, settled_base]
  have hmake : (rehash c m curr count depth i).1.settled = (rehash c m.settled curr count depth i).1 := by
    simp only [rehash, hsource]
    rw [settled_place, settled_make]
    rfl
  rw [hmake]
  rfl

/-! ### What a thread at a bucket relies on -/

variable [DecidableEq K] {x : Cursor K V} {pc : Pc K V} {f : K → Option V} {ret : Option V} {d : ℕ}

/-- The cursor stands on the path of its key. -/
def OnPath (c : Config K) (m : Table K V) (x : Cursor K V) : Prop :=
  ∃ d, Stands c m.settled x.op.key d x.curr x.depth x.count

def Ok (c : Config K) (m : Table K V) : Pc K V → Prop
  | .idle | .done _ _ => True
  | .load x | .cas x => OnPath c m x
  | .descend x | .publish x => OnPath c m x ∧ ∃ q, (m.buckets x.curr (c.index x)).base = .plist q
  | .bucket x | .unlock x _ => OnPath c m x ∧ ∀ q, (m.buckets x.curr (c.index x)).base ≠ .plist q

/-- What no step takes back. -/
structure Grows (c : Config K) (m m' : Table K V) : Prop where
  path : ∀ k d p, m.settled.trie.path c.slot k d = some p → m'.settled.trie.path c.slot k d = some p
  plist : ∀ p i q, (m.buckets p i).base = .plist q → (m'.buckets p i).base = .plist q

lemma Grows.of_settled (h : m'.settled = m.settled) : Grows c m m' where
  path k d p hp := by rwa [h]
  plist p i q hb := by
    have hsame : (m'.settled.buckets p i).base = (m.settled.buckets p i).base := by rw [h]
    simp only [Table.settled, settled_base] at hsame
    rw [hsame, hb]

lemma OnPath.grows (h : OnPath c m x) (hg : Grows c m m') : OnPath c m' x := by
  obtain ⟨d, hs⟩ := h
  exact ⟨d, hg.path _ _ _ hs.path, hs.depth, hs.count⟩

lemma OnPath.lt (h : OnPath c m x) (hi : Inv c m.settled) : x.curr < m.unmade := by
  obtain ⟨d, hs⟩ := h
  exact hi.path_lt hs.path

lemma index_slot (hs : Stands c m.settled x.op.key d x.curr x.depth x.count) : c.index x = c.slot d x.op.key :=
  hs.bucket

/-- The bucket whose lock a thread holds. -/
def Pc.holds (c : Config K) : Pc K V → Option (ℕ × ℕ)
  | .bucket x | .publish x | .unlock x _ => some (x.curr, c.index x)
  | .idle | .load _ | .cas _ | .descend _ | .done _ _ => none

lemma Ok.grows (h : Ok c m pc) (hg : Grows c m m')
    (hown : ∀ p i, pc.holds c = some (p, i) → (m'.buckets p i).base = (m.buckets p i).base) : Ok c m' pc := by
  cases pc with
  | idle | done op ret => trivial
  | load x | cas x => exact OnPath.grows h hg
  | descend x | publish x =>
    obtain ⟨hp, q, hq⟩ := h
    exact ⟨hp.grows hg, q, hg.plist _ _ _ hq⟩
  | bucket x | unlock x ret =>
    obtain ⟨hp, hq⟩ := h
    refine ⟨hp.grows hg, ?_⟩
    rw [hown _ _ rfl]
    exact hq

/-! ### A visit to a locked bucket -/

def Cursor.pairs (c : Config K) (m : Table K V) (x : Cursor K V) : EList K V :=
  (m.buckets x.curr (c.index x)).base.pairs

/-- Every way through `visit`. -/
inductive Visit (c : Config K) (m : Table K V) (x : Cursor K V) : Table K V → Pc K V → Prop
  | contains {k : K} : x.op = .contains k → Visit c m x m (.unlock x ((x.pairs c m).lookup k))
  | missing {k : K} : x.op = .remove k → (x.pairs c m).lookup k = none → Visit c m x m (.unlock x none)
  | remove {k : K} : x.op = .remove k → Visit c m x
      (m.setBase x.curr (c.index x) (.elist ((x.pairs c m).remove k))) (.unlock x ((x.pairs c m).lookup k))
  | found {k : K} {v : V} : x.op = .insert k v → ((x.pairs c m).lookup k).isSome →
      Visit c m x m (.unlock x ((x.pairs c m).lookup k))
  | insert {k : K} {v : V} : x.op = .insert k v → (x.pairs c m).lookup k = none → Visit c m x
      (m.setBase x.curr (c.index x) (.elist ((x.pairs c m).elist_insert k v))) (.unlock x none)
  | grow {k : K} {v : V} : x.op = .insert k v → (x.pairs c m).lookup k = none →
      c.elist_size ≤ (x.pairs c m).length → Visit c m x
      ((rehash c m x.curr x.count x.depth (c.index x)).1.setBase x.curr (c.index x)
        (.plist (rehash c m x.curr x.count x.depth (c.index x)).2)) (.publish x)

lemma visit_cases (h : visit c m x = some (m', pc)) : Visit c m x m' pc := by
  have hpairs : x.pairs c m = (m.buckets x.curr (c.index x)).base.pairs := rfl
  rw [visit] at h
  cases hb : (m.buckets x.curr (c.index x)).base with
  | plist q =>
    rw [hb] at h
    cases hop : x.op with
    | _ => simp at h
  | null =>
    rw [hb] at h hpairs
    have hnone : ∀ k, (x.pairs c m).lookup k = none := by
      rw [hpairs]
      exact fun k => rfl
    cases hop : x.op with
    | contains k =>
      simp only [hop, Option.some.injEq, Prod.mk.injEq] at h
      obtain ⟨rfl, rfl⟩ := h
      rw [← hpairs]
      exact .contains hop
    | remove k =>
      simp only [hop, Option.some.injEq, Prod.mk.injEq] at h
      obtain ⟨rfl, rfl⟩ := h
      exact .missing hop (hnone k)
    | insert k v =>
      simp only [hop, Option.some.injEq, Prod.mk.injEq] at h
      obtain ⟨rfl, rfl⟩ := h
      have hnil : x.pairs c m = [] := hpairs
      rw [← hnil]
      exact .insert hop (hnone k)
  | elist e =>
    rw [hb] at h hpairs
    have he : x.pairs c m = e := hpairs
    subst he
    cases hop : x.op with
    | contains k =>
      simp only [hop, Option.some.injEq, Prod.mk.injEq] at h
      obtain ⟨rfl, rfl⟩ := h
      exact .contains hop
    | remove k =>
      simp only [hop] at h
      split_ifs at h with hfound
      · cases h
        exact .remove hop
      · cases h
        exact .missing hop (by simpa using hfound)
    | insert k v =>
      simp only [hop] at h
      split_ifs at h with hfound hroom
      · cases h
        exact .found hop hfound
      · cases h
        exact .insert hop (by simpa using hfound)
      · cases h
        exact .grow hop (by simpa using hfound) (Nat.le_of_not_lt hroom)

/-- What a visit leaves to the other threads. -/
structure Visited (c : Config K) (m m' : Table K V) (x : Cursor K V) : Prop where
  grows : Grows c m m'
  own : (m'.buckets x.curr (c.index x)).lock = (m.buckets x.curr (c.index x)).lock
  other : ∀ p i, (p, i) ≠ (x.curr, c.index x) → m'.buckets p i = m.buckets p i ∨
    p = m.unmade ∧ (m'.buckets p i).Open

lemma Visited.refl : Visited c m m x := ⟨.of_settled rfl, rfl, fun _ _ _ => .inl rfl⟩

lemma setBase_other {b : Base K V} (h : (q, j) ≠ (p, i)) : (m.setBase p i b).buckets q j = m.buckets q j := by
  rw [Table.setBase, setBucket_buckets, if_neg]
  rintro ⟨rfl, rfl⟩
  exact h rfl

lemma setBase_self {b : Base K V} : (m.setBase p i b).buckets p i = ⟨b, (m.buckets p i).lock⟩ := by
  rw [Table.setBase, setBucket_buckets, if_pos ⟨rfl, rfl⟩]

section Leaf

variable (hs : Stands c m.settled x.op.key d x.curr x.depth x.count)
  (hb : ∀ q, (m.buckets x.curr (c.index x)).base ≠ .plist q)

include hs hb

lemma settled_leaf : m.settled.trie.Leaf c.slot x.op.key d x.curr := by
  refine ⟨hs.path, ?_⟩
  rw [← index_slot hs]
  simp only [Table.trie, Table.settled, settled_open hb]
  exact Bucket.Open.child ⟨rfl, hb⟩

lemma visited_setBase : Visited c m (m.setBase x.curr (c.index x) (.elist e)) x where
  grows := by
    have hleaf := settled_leaf hs hb
    constructor
    · intro k n p hp
      rw [settled_setBase (by simp), trie_setBucket (open_elist e)]
      · rwa [Trie.setItems_path]
      · rw [index_slot hs]
        exact hleaf.2
    · intro p i q hq
      by_cases hpi : (p, i) = (x.curr, c.index x)
      · cases hpi
        exact absurd hq (hb q)
      · rwa [setBase_other hpi]
  own := by rw [setBase_self]
  other p i hpi := .inl (setBase_other hpi)

lemma visited_grow (hi : Inv c m.settled) :
    Visited c m ((rehash c m x.curr x.count x.depth (c.index x)).1.setBase x.curr (c.index x)
      (.plist (rehash c m x.curr x.count x.depth (c.index x)).2)) x := by
  have hleaf := settled_leaf hs hb
  have hlt : x.curr < m.unmade := OnPath.lt ⟨d, hs⟩ hi
  have hother : ∀ p i, (p, i) ≠ (x.curr, c.index x) → ((rehash c m x.curr x.count x.depth (c.index x)).1.setBase
      x.curr (c.index x) (.plist (rehash c m x.curr x.count x.depth (c.index x)).2)).buckets p i = m.buckets p i ∨
      p = m.unmade ∧ (((rehash c m x.curr x.count x.depth (c.index x)).1.setBase x.curr (c.index x)
        (.plist (rehash c m x.curr x.count x.depth (c.index x)).2)).buckets p i).Open := by
    intro p i hpi
    rw [setBase_other hpi]
    by_cases hp : p = m.unmade
    · subst hp
      exact .inr ⟨rfl, rehash_buckets_open⟩
    · exact .inl (rehash_buckets_other hp)
  refine ⟨⟨fun k n p hp => ?_, fun p i q hq => ?_⟩, ?_, hother⟩
  · rw [settled_rehash, trie_grow hi hlt.ne]
    refine Trie.path_expand_of_path ?_ hp
    rw [index_slot hs]
    exact hleaf.2
  · by_cases hpi : (p, i) = (x.curr, c.index x)
    · cases hpi
      exact absurd hq (hb q)
    · rcases hother p i hpi with hsame | ⟨rfl, -⟩
      · rw [hsame, hq]
      · have hnew := hi.unmade m.unmade i le_rfl
        have hbase : (m.settled.buckets m.unmade i).base = .plist q := by
          simp only [Table.settled, settled_base, hq]
        rw [hnew] at hbase
        cases hbase
  · rw [setBase_self, rehash_buckets_other hlt.ne]

lemma settled_pairs : (m.settled.buckets x.curr (c.slot d x.op.key)).base.pairs = x.pairs c m := by
  rw [Cursor.pairs, index_slot hs]
  simp only [Table.settled, settled_base]

lemma pairs_lookup (hf : Holds c m.settled f) : (x.pairs c m).lookup x.op.key = f x.op.key := by
  rw [← settled_pairs hs hb]
  exact hf.lookup (settled_leaf hs hb)

/-- A visit does to the map what the call does, or what a rehash does. -/
lemma Visit.holds (hf : Holds c m.settled f) (h : Visit c m x m' pc)
    (ha : ∀ kv ∈ x.pairs c m, pc = .publish x →
      c.levelHash kv.1 (x.depth + 1) x.count = c.levelHash kv.1 (x.depth + 2) (x.count * 2)) :
    Visited c m m' x ∧
      ((pc = .unlock x (f x.op.key) ∧ Holds c m'.settled (x.op.apply f) ∧
        ∀ q, (m'.buckets x.curr (c.index x)).base ≠ .plist q) ∨
      (pc = .publish x ∧ Holds c m'.settled f ∧ ∃ q, (m'.buckets x.curr (c.index x)).base = .plist q)) := by
  have hleaf := settled_leaf hs hb
  have hpairs := settled_pairs hs hb
  have hlookup := pairs_lookup hs hb hf
  have hset : ∀ e : EList K V, (m.setBase x.curr (c.index x) (.elist e)).settled =
      m.settled.setBucket x.curr (c.slot d x.op.key) ⟨.elist e, .e_unlocked⟩ := by
    intro e
    rw [settled_setBase (by simp), index_slot hs]
  have hlist : ∀ e : EList K V, ∀ q, ((m.setBase x.curr (c.index x) (.elist e)).buckets x.curr
      (c.index x)).base ≠ .plist q := by
    intro e q
    rw [setBase_self]
    simp
  cases h with
  | contains hop =>
    rw [hop] at hlookup ⊢
    exact ⟨.refl, .inl ⟨by rw [← hlookup]; rfl, hf, hb⟩⟩
  | @missing k hop hnone =>
    rw [hop] at hlookup ⊢
    have hkeep : (MapOp.remove k : MapOp K V).apply f = f := apply_remove_of_none (hlookup.symm.trans hnone)
    refine ⟨.refl, .inl ⟨by rw [← hlookup]; exact congrArg _ hnone.symm, ?_, hb⟩⟩
    rw [hkeep]
    exact hf
  | @remove k hop =>
    refine ⟨visited_setBase hs hb, .inl ⟨by rw [← hlookup, hop]; rfl, ?_, hlist _⟩⟩
    have htake := hf.take hleaf
    rw [hpairs, ← hset] at htake
    rw [hop] at htake ⊢
    exact htake
  | @found k v hop hsome =>
    rw [hop] at hlookup ⊢
    have hkeep : (MapOp.insert k v).apply f = f := by
      apply apply_insert_of_some
      rwa [← show _ = f k from hlookup]
    refine ⟨.refl, .inl ⟨by rw [← hlookup]; rfl, ?_, hb⟩⟩
    rw [hkeep]
    exact hf
  | @insert k v hop hnone =>
    rw [hop] at hlookup
    have hmiss := hlookup.symm.trans hnone
    refine ⟨visited_setBase hs hb, .inl ⟨by rw [hop]; exact congrArg _ hmiss.symm, ?_, hlist _⟩⟩
    have hadd := hf.add hleaf (by rw [hop]; exact hmiss) v
    rw [hpairs, ← hset] at hadd
    rw [hop] at hadd ⊢
    exact hadd
  | grow hop hnone hfull =>
    refine ⟨visited_grow hs hb hf.inv, .inr ⟨rfl, ?_, _, by rw [setBase_self]⟩⟩
    rw [settled_rehash, index_slot hs]
    refine (hf.grow hs hleaf ?_).1
    rw [hpairs]
    exact fun kv hkv => ha kv hkv rfl

end Leaf

end ObjectCache.Iht.Local
