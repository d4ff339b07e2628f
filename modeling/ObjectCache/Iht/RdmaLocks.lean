import ObjectCache.Iht.RdmaMemory

/-! The locks of the buckets: which bucket each client has locked, which PList it has made, and what
its steps leave to the others. -/

set_option linter.unusedSectionVars false

namespace ObjectCache.Iht.Rdma

open Lib Cache

variable {A K V T : Type} [DecidableEq A] {c : Config A K} {m m' : Memory A K V} {p q new_p : A}
  {i j depth count : ℕ} {k : K} {e : EList K V} {w : LockState}

/-! ### A client at a bucket -/

/-- The descent of a key stands at the PList at `p`. -/
structure Stands (c : Config A K) (m : Memory A K V) (k : K) (p : A) (depth count : ℕ) : Prop where
  path : (m.trie c).path c.slot k (depth - 1) = some p
  pos : 1 ≤ depth
  size : count = c.plist_size * 2 ^ (depth - 1)

lemma Stands.grows (h : Stands c m k p depth count) (hg : Grows m m') :
    Stands c m' k p depth count :=
  ⟨hg.path h.path, h.pos, h.size⟩

lemma Stands.bucket (h : Stands c m k p depth count) :
    c.levelHash k depth count = c.slot (depth - 1) k := by
  have hd : depth - 1 + 1 = depth := by have := h.pos; omega
  rw [Config.slot, hd, h.size]

lemma Stands.onPath (h : Stands c m k p depth count) : OnPath c m p (c.levelHash k depth count) :=
  ⟨k, depth - 1, h.path, h.bucket.symm⟩

lemma Stands.start : Stands c m k c.root 1 c.plist_size :=
  ⟨rfl, le_rfl, by simp⟩

/-- One level further down. -/
lemma Stands.down (h : Stands c m k p depth count) {marked : Bool}
    (hb : (m.plists p (c.levelHash k depth count)).base = .plist q marked) :
    Stands c m k q (depth + 1) (count * 2) where
  path := by
    obtain ⟨d, rfl⟩ : ∃ d, depth = d + 1 := ⟨depth - 1, by have := h.pos; omega⟩
    rw [h.bucket] at hb
    refine Trie.path_succ.mpr ⟨p, h.path, ?_⟩
    simp only [Memory.trie]
    rw [Nat.add_sub_cancel] at hb
    rw [hb, child_plist]
  pos := by omega
  size := by
    obtain ⟨d, rfl⟩ : ∃ d, depth = d + 1 := ⟨depth - 1, by have := h.pos; omega⟩
    simp only [h.size, Nat.add_sub_cancel, pow_succ, mul_assoc]

section Leaf

variable (h : Stands c m k p depth count)
  (hb : (m.plists p (c.levelHash k depth count)).base = .elist p (c.levelHash k depth count))

include h hb

lemma Stands.leaf : (m.trie c).Leaf c.slot k (depth - 1) p := by
  refine ⟨h.path, ?_⟩
  simp only [Memory.trie, ← h.bucket, hb, child_elist]

lemma Stands.items : (m.trie c).items p (c.slot (depth - 1) k) =
    m.elists p (c.levelHash k depth count) := by
  rw [← h.bucket]
  exact items_of_linked (path_linked h.path) (by rw [hb, child_elist])

variable [DecidableEq K]

lemma Stands.lookup {f : K → Option V} (hf : Holds c.slot (m.trie c) f) :
    (m.elists p (c.levelHash k depth count)).lookup k = f k := by
  have hl := hf.lookup (h.leaf hb)
  rwa [h.items hb] at hl

/-- The new PList holds the pairs of the bucket where the next level looks for them. -/
lemma Stands.rehashed (hm : m.Inv c) : Trie.Rehashed c.slot (depth - 1)
    ((m.trie c).items p (c.slot (depth - 1) k))
    (spread c count depth (m.elists p (c.levelHash k depth count))) := by
  have hd : depth - 1 + 1 = depth := by have := h.pos; omega
  have hnext : ∀ k, c.levelHash k (depth + 1) (count * 2) = c.slot (depth - 1 + 1) k := by
    intro k
    rw [Config.slot, h.size, hd, mul_assoc, ← pow_succ, hd]
  rw [← h.items hb]
  exact rehashed_filter (g := fun k => c.levelHash k (depth + 1) (count * 2)) hm.tree.placed _
    fun kv _ => hnext kv.1

end Leaf

/-- The write that an update makes of the list it has read, and what it returns. -/
inductive Pending [DecidableEq K] (c : Config A K) (old : EList K V) :
    MapOp K V → EList K V → Option V → Prop
  | insert {k : K} {v : V} : old.lookup k = none → old.length < c.elist_size →
      Pending c old (.insert k v) (old.elist_insert k v) none
  | remove {k : K} : Pending c old (.remove k) (old.remove k) (old.lookup k)

section Pending

variable [DecidableEq K] {op : MapOp K V} {ret : Option V}

lemma Pending.length_le {old : EList K V} (h : Pending c old op e ret)
    (hold : old.length ≤ c.elist_size) : e.length ≤ c.elist_size := by
  cases h with
  | insert _ hlt =>
    rw [EList.elist_insert, List.length_append, List.length_singleton]
    exact hlt
  | @remove k =>
    refine le_trans ?_ hold
    by_cases hk : k ∈ old.map Prod.fst
    · obtain ⟨l, v, r, rfl, hp⟩ := EList.remove_perm hk
      rw [hp.length_eq]
      simp
    · rw [EList.remove, EList.indexOf_eq_none hk]

/-- The write of an update does to the map what the update does. -/
lemma Stands.holds_write (h : Stands c m op.key p depth count)
    (hb : (m.plists p (c.levelHash op.key depth count)).base =
      .elist p (c.levelHash op.key depth count)) {f : K → Option V}
    (hf : Holds c.slot (m.trie c) f)
    (hp : Pending c (m.elists p (c.levelHash op.key depth count)) op e ret) :
    ret = f op.key ∧
      Holds c.slot ((m.trie c).setItems p (c.levelHash op.key depth count) e) (op.apply f) := by
  have hlookup := h.lookup hb hf
  have hleaf := h.leaf hb
  have hitems := h.items hb
  rw [h.bucket] at hp hlookup hitems ⊢
  cases hp with
  | @insert k v hn =>
    have hins := hf.insert hleaf (hlookup.symm.trans hn) v
    simp only [MapOp.key] at hitems hins hlookup hn
    rw [hitems] at hins
    exact ⟨hn.symm.trans hlookup, hins⟩
  | @remove k =>
    have hrem := hf.remove hleaf
    simp only [MapOp.key] at hitems hrem hlookup
    rw [hitems] at hrem
    exact ⟨hlookup, hrem⟩

end Pending

/-! ### What each client has locked -/

inductive Role (A : Type) where
  | free
  | locked (p : A) (i : ℕ)
  | made (p : A) (i : ℕ) (new_p : A)
  | published (p : A) (i : ℕ)

namespace Role

def holds : Role A → Option (A × ℕ)
  | .free => none
  | .locked p i | .made p i _ | .published p i => some (p, i)

def makes : Role A → Option A
  | .made _ _ new_p => some new_p
  | _ => none

def Ok (c : Config A K) (m : Memory A K V) : Role A → Prop
  | .free => True
  | .locked p i => m.plists p i = ⟨.elist p i, .e_locked⟩
  | .made p i new_p => m.plists p i = ⟨.elist p i, .e_locked⟩ ∧ Private c m p new_p ∧
    ∃ k d, (m.trie c).path c.slot k d = some p ∧ c.slot d k = i ∧
      Trie.Rehashed c.slot d (m.elists p i) (m.elists new_p)
  | .published p i => (m.plists p i).lock = .e_locked ∧ ∃ q marked, (m.plists p i).base = .plist q marked

end Role

/-- What a step of another client leaves as it is. -/
structure Keeps (c : Config A K) (m m' : Memory A K V) (r : Role A) : Prop extends Grows m m' where
  held : ∀ {p i}, r.holds = some (p, i) →
    m'.plists p i = m.plists p i ∧ m'.elists p i = m.elists p i
  made : ∀ {q}, r.makes = some q → m'.plists q = m.plists q ∧ m'.elists q = m.elists q ∧
    (m'.Linked c q → m.Linked c q)

variable {r : Role A}

lemma Keeps.refl : Keeps c m m r where
  toGrows := .refl
  held _ := ⟨rfl, rfl⟩
  made _ := ⟨rfl, rfl, id⟩

lemma Keeps.send : Keeps c m (m.send p i w) r where
  toGrows := grows_send w
  held _ := ⟨rfl, rfl⟩
  made _ := ⟨rfl, rfl, id⟩

lemma Private.keep (h : Private c m p new_p) (hg : Grows m m')
    (hp : m'.plists new_p = m.plists new_p) (hl : m'.Linked c new_p → m.Linked c new_p) :
    Private c m' p new_p where
  unlinked hn := h.unlinked (hl hn)
  plist := hp.trans h.plist
  younger := hg.age h.younger

lemma Role.Ok.keep (h : r.Ok c m) (hk : Keeps c m m' r) : r.Ok c m' := by
  cases r with
  | free => trivial
  | locked p i =>
    obtain ⟨hb, -⟩ := hk.held (p := p) (i := i) rfl
    exact hb.trans h
  | made p i new_p =>
    obtain ⟨hb, he⟩ := hk.held (p := p) (i := i) rfl
    obtain ⟨hp, hn, hl⟩ := hk.made (q := new_p) rfl
    obtain ⟨hbucket, hprivate, k, d, hpath, hs, hr⟩ := h
    exact ⟨hb.trans hbucket, hprivate.keep hk.toGrows hp hl, k, d, hk.toGrows.path hpath, hs,
      by rw [hn, he]; exact hr⟩
  | published p i =>
    obtain ⟨hb, -⟩ := hk.held (p := p) (i := i) rfl
    rw [Role.Ok, hb]
    exact h

lemma Role.Ok.lock (h : r.Ok c m) (hh : r.holds = some (p, i)) :
    (m.plists p i).lock = .e_locked := by
  cases r with
  | free => cases hh
  | locked q j =>
    cases hh
    rw [show m.plists p i = _ from h]
  | made q j new_p =>
    cases hh
    rw [h.1]
  | published q j =>
    cases hh
    exact h.1

lemma Role.Ok.private (h : r.Ok c m) (hm : r.makes = some q) : ∃ p, Private c m p q := by
  cases r with
  | made p i new_p =>
    cases hm
    exact ⟨p, h.2.1⟩
  | _ => cases hm

lemma linked_setBucket {b : Bucket A} (hb : b.base = (m.plists p i).base) :
    (m.setBucket p i b).Linked c q → m.Linked c q := by
  rintro (hq | ⟨r, j, hl⟩)
  · exact .inl hq
  · rw [setBucket_base hb] at hl
    exact .inr ⟨r, j, hl⟩

/-- Every locked bucket is one client's, or its lock word is on the way. -/
structure Locks (c : Config A K) (m : Memory A K V) (role : T → Role A) : Prop where
  memory : m.Inv c
  ok : ∀ t, (role t).Ok c m
  exclusive : ∀ {t u b}, (role t).holds = some b → (role u).holds = some b → t = u
  landed : ∀ {t p i w}, (role t).holds = some (p, i) → (p, i, w) ∉ m.in_flight
  owned : ∀ {p i}, (m.plists p i).lock = .e_locked →
    (∃ t, (role t).holds = some (p, i)) ∨ ∃ w, (p, i, w) ∈ m.in_flight
  made : ∀ {t u q}, (role t).makes = some q → (role u).makes = some q → t = u

lemma initial_items (p : A) (i : ℕ) : ((Memory.initial c : Memory A K V).trie c).items p i = [] := by
  by_cases h : (Memory.initial c : Memory A K V).Linked c p ∧
      ((Memory.initial c : Memory A K V).plists p i).base.child = none
  · rw [items_of_linked h.1 h.2]
    rfl
  · exact items_of_not h

lemma initial_inv : (Memory.initial c : Memory A K V).Inv c where
  tree := by
    have hlink : ∀ p i, ((Memory.initial c : Memory A K V).trie c).link p i = none := fun _ _ => rfl
    refine ⟨.of_no_link hlink initial_items, fun h => ?_, fun h => ?_⟩
    · rw [hlink] at h
      cases h
    · rw [hlink] at h
      cases h
  root := List.mem_singleton_self _
  sound p i := .elist (by simp)
  touched hb := absurd rfl hb
  copy {p curr} hc i := by
    simp only [Memory.initial] at hc
    split_ifs at hc with hp
    · rw [List.mem_singleton.mp hc]
      exact ⟨.inl rfl, by simp [initPList]⟩
    · cases hc
  unmade {p} hp := by
    refine ⟨if_neg fun h => hp ?_, rfl⟩
    rw [h]
    exact List.mem_singleton_self _
  in_flight hm := by cases hm
  once := List.nodup_nil
  full p i := Nat.zero_le _

namespace Locks

lemma initial : Locks c (Memory.initial c : Memory A K V) fun _ : T => .free where
  memory := initial_inv
  ok _ := trivial
  exclusive h := by cases h
  landed h := by cases h
  owned h := by cases h
  made h := by cases h

variable {role : T → Role A} {t u : T}

lemma onPath (h : Locks c m role) (ht : (role t).holds = some (p, i)) : OnPath c m p i := by
  refine h.memory.onPath_of_lock ?_
  rw [(h.ok t).lock ht]
  simp

lemma not_held (h : Locks c m role) (hl : (m.plists p i).lock ≠ .e_locked) (u : T) :
    (role u).holds ≠ some (p, i) :=
  fun hu => hl ((h.ok u).lock hu)

lemma not_held_other (h : Locks c m role) (ht : (role t).holds = some (p, i)) (hu : u ≠ t) :
    (role u).holds ≠ some (p, i) :=
  fun hu' => hu (h.exclusive hu' ht)

/-- What a client has made is on no path. -/
lemma made_ne (h : Locks c m role) (hm : (role u).makes = some q) (ho : OnPath c m p i) :
    q ≠ p := by
  rintro rfl
  obtain ⟨r, hr⟩ := (h.ok u).private hm
  exact hr.unlinked ho.linked

variable [DecidableEq T]

/-- A step of one client, by what it does to memory and to its own locks. -/
lemma put (h : Locks c m role) (hm : m'.Inv c) (hok : r.Ok c m')
    (hkeep : ∀ u, u ≠ t → Keeps c m m' (role u))
    (hex : ∀ u b, u ≠ t → r.holds = some b → (role u).holds ≠ some b)
    (hland : ∀ u p i w, (Function.update role t r u).holds = some (p, i) → (p, i, w) ∉ m'.in_flight)
    (hown : ∀ p i, (m'.plists p i).lock = .e_locked →
      (∃ u, (Function.update role t r u).holds = some (p, i)) ∨ ∃ w, (p, i, w) ∈ m'.in_flight)
    (hmade : ∀ u q, u ≠ t → r.makes = some q → (role u).makes ≠ some q) :
    Locks c m' (Function.update role t r) where
  memory := hm
  ok u := by
    by_cases hu : u = t
    · subst hu
      rw [Function.update_self]
      exact hok
    · rw [Function.update_of_ne hu]
      exact (h.ok u).keep (hkeep u hu)
  exclusive {u w b} hb hb' := by
    by_cases hu : u = t
    · by_cases hw : w = t
      · exact hu.trans hw.symm
      · rw [hu, Function.update_self] at hb
        rw [Function.update_of_ne hw] at hb'
        exact absurd hb' (hex w b hw hb)
    · rw [Function.update_of_ne hu] at hb
      by_cases hw : w = t
      · rw [hw, Function.update_self] at hb'
        exact absurd hb (hex u b hu hb')
      · rw [Function.update_of_ne hw] at hb'
        exact h.exclusive hb hb'
  landed {u p i w} hb := hland u p i w hb
  owned {p i} hl := hown p i hl
  made {u w q} hq hq' := by
    by_cases hu : u = t
    · by_cases hw : w = t
      · exact hu.trans hw.symm
      · rw [hu, Function.update_self] at hq
        rw [Function.update_of_ne hw] at hq'
        exact absurd hq' (hmade w q hw hq)
    · rw [Function.update_of_ne hu] at hq
      by_cases hw : w = t
      · rw [hw, Function.update_self] at hq'
        exact absurd hq (hmade u q hu hq')
      · rw [Function.update_of_ne hw] at hq'
        exact h.made hq hq'

/-- A step that leaves the locks and the lock words on their way. -/
lemma put_same (h : Locks c m role) (hm : m'.Inv c) (hok : r.Ok c m')
    (hkeep : ∀ u, u ≠ t → Keeps c m m' (role u)) (hh : r.holds = (role t).holds)
    (hf : m'.in_flight = m.in_flight)
    (hl : ∀ p i, (m'.plists p i).lock = (m.plists p i).lock)
    (hmade : ∀ u q, u ≠ t → r.makes = some q → (role u).makes ≠ some q) :
    Locks c m' (Function.update role t r) := by
  have hsame : ∀ u, (Function.update role t r u).holds = (role u).holds := by
    intro u
    by_cases hu : u = t
    · rw [hu, Function.update_self, hh]
    · rw [Function.update_of_ne hu]
  refine h.put hm hok hkeep (fun u b hu hb hb' => ?_) (fun u p i w hb => ?_) (fun p i hw => ?_) hmade
  · rw [hh] at hb
    exact hu (h.exclusive hb' hb)
  · rw [hsame] at hb
    rw [hf]
    exact h.landed hb
  · simp only [hsame, hf]
    rw [hl] at hw
    exact h.owned hw

/-! ### The steps -/

lemma keeps_setBucket (h : Locks c m role) {b : Bucket A} (ho : OnPath c m p i)
    (hu : (role u).holds ≠ some (p, i)) (hg : Grows m (m.setBucket p i b))
    (hlink : ∀ {q}, (role u).makes = some q → (m.setBucket p i b).Linked c q → m.Linked c q) :
    Keeps c m (m.setBucket p i b) (role u) where
  toGrows := hg
  held {q j} hq := by
    refine ⟨setBucket_other b ?_, rfl⟩
    rintro ⟨⟩
    exact hu hq
  made {q} hq := ⟨Function.update_of_ne (h.made_ne hq ho) _ _, rfl, hlink hq⟩

section Acquire

variable (h : Locks c m role) (ho : OnPath c m p i) (hl : (m.plists p i).lock = .e_unlocked)

include h ho hl

lemma acquire_grows : (m.setBucket p i ⟨(m.plists p i).base, .e_locked⟩).Inv c ∧
    Grows m (m.setBucket p i ⟨(m.plists p i).base, .e_locked⟩) := by
  have hsound : (⟨(m.plists p i).base, .e_locked⟩ : Bucket A).Sound p i := by
    rw [(h.memory.sound p i).base_of_e_unlocked hl]
    exact .elist (by simp)
  refine h.memory.setLock ho (by rw [hl]; simp) hsound fun w hm => ?_
  have hlock := (h.memory.in_flight hm).1
  rw [hl] at hlock
  cases hlock

lemma acquire_keeps (u : T) :
    Keeps c m (m.setBucket p i ⟨(m.plists p i).base, .e_locked⟩) (role u) :=
  h.keeps_setBucket ho (h.not_held (by rw [hl]; simp) u) (h.acquire_grows ho hl).2
    fun _ => linked_setBucket rfl

lemma acquire (ht : (role t).holds = none) :
    Locks c (m.setBucket p i ⟨(m.plists p i).base, .e_locked⟩)
      (Function.update role t (.locked p i)) := by
  have hne : (m.plists p i).lock ≠ .e_locked := by rw [hl]; simp
  refine h.put (h.acquire_grows ho hl).1 ?_ (fun u _ => h.acquire_keeps ho hl u)
    (fun u b _ hb => ?_) (fun u q j w hb hm => ?_) (fun q j hw => ?_) fun u q _ hq => by cases hq
  · rw [Role.Ok, setBucket_self, (h.memory.sound p i).base_of_e_unlocked hl]
  · cases hb
    exact h.not_held hne u
  · by_cases hu : u = t
    · rw [hu, Function.update_self] at hb
      cases hb
      exact hne (h.memory.in_flight hm).1
    · rw [Function.update_of_ne hu] at hb
      exact h.landed hb hm
  · by_cases hq : q = p ∧ j = i
    · refine .inl ⟨t, ?_⟩
      rw [Function.update_self, hq.1, hq.2]
      rfl
    · rw [setBucket_plists, if_neg hq] at hw
      refine (h.owned hw).imp_left ?_
      rintro ⟨u, hu⟩
      refine ⟨u, ?_⟩
      rw [Function.update_of_ne]
      · exact hu
      · rintro rfl
        rw [ht] at hu
        cases hu

end Acquire

section Write

variable (h : Locks c m role) (ht : role t = .locked p i)

include h ht

lemma write_keeps (hu : u ≠ t) : Keeps c m (m.setElist p i e) (role u) where
  toGrows := grows_setElist e
  held {q j} hq := by
    refine ⟨rfl, setElist_other e ?_⟩
    rintro ⟨⟩
    exact h.not_held_other (by rw [ht]; rfl) hu hq
  made {q} hq := ⟨rfl, Function.update_of_ne (h.made_ne hq (h.onPath (t := t) (by rw [ht]; rfl))) _ _,
    id⟩

lemma write (he : e.length ≤ c.elist_size) (hp : ((m.trie c).setItems p i e).Placed c.slot) :
    Locks c (m.setElist p i e) role := by
  have hok := h.ok t
  rw [ht] at hok
  have hholds : (role t).holds = some (p, i) := by rw [ht]; rfl
  have hchild : (m.plists p i).base.child = none := by
    rw [show m.plists p i = _ from hok, child_elist]
  have hlocks := h.put_same (t := t) (r := role t)
    (h.memory.setElist (h.onPath hholds).linked hchild he hp)
    (by rw [ht]; exact hok) (fun u hu => h.write_keeps ht hu) rfl rfl (fun p i => rfl)
    fun u q _ hq => by
      rw [ht] at hq
      cases hq
  rwa [Function.update_eq_self] at hlocks

end Write

section Allocate

variable {d : ℕ} {f : ℕ → EList K V}

lemma allocate_keeps (h : Locks c m role) (hn : new_p ∉ m.allocated) (u : T) :
    Keeps c m (m.rehash c count depth e new_p) (role u) where
  toGrows := grows_rehash h.memory hn
  held {q j} hq := by
    refine ⟨by rw [rehash_plists h.memory hn], ?_⟩
    rw [rehash_elists]
    rintro rfl
    exact hn ((h.onPath hq).mem h.memory)
  made {q} hq := by
    have hplists : (m.rehash c count depth e new_p).plists = m.plists := rehash_plists h.memory hn
    refine ⟨by rw [hplists], rehash_elists ?_, fun hl => ?_⟩
    · rintro rfl
      obtain ⟨r, hr⟩ := (h.ok u).private hq
      exact hn hr.younger.new
    · simpa only [Memory.Linked, hplists] using hl

lemma allocate (h : Locks c m role) (hn : new_p ∉ m.allocated) (ht : role t = .locked p i)
    (hd : (m.trie c).path c.slot k d = some p) (hs : c.slot d k = i)
    (hr : Trie.Rehashed c.slot d (m.elists p i) (spread c count depth (m.elists p i))) :
    Locks c (m.rehash c count depth (m.elists p i) new_p)
      (Function.update role t (.made p i new_p)) := by
  have hok := h.ok t
  rw [ht] at hok
  have hholds : (role t).holds = some (p, i) := by rw [ht]; rfl
  have hkeep : Keeps c m (m.rehash c count depth (m.elists p i) new_p) (role t) :=
    h.allocate_keeps hn t
  refine h.put_same (h.memory.rehash hn (h.memory.full p i)) ⟨(hkeep.held hholds).1.trans hok,
    private_rehash h.memory hn ((h.onPath hholds).mem h.memory), k, d, hkeep.toGrows.path hd, hs, ?_⟩
    (fun u _ => h.allocate_keeps hn u) hholds.symm rfl
    (fun q j => by rw [rehash_plists h.memory hn]) fun u q _ hq hq' => ?_
  · rw [(hkeep.held hholds).2]
    simp only [Memory.rehash, Function.update_self]
    exact hr
  · cases hq
    obtain ⟨r, hr⟩ := (h.ok u).private hq'
    exact hn hr.younger.new

end Allocate

section Publish

variable (h : Locks c m role) (ht : role t = .made p i new_p) (marked : Bool)

include h ht

lemma publish_grows :
    Grows m (m.setBucket p i ⟨.plist new_p marked, (m.plists p i).lock⟩) := by
  have hok := h.ok t
  rw [ht] at hok
  exact grows_publish (by rw [hok.1, child_elist]) rfl

lemma publish_keeps (hu : u ≠ t) :
    Keeps c m (m.setBucket p i ⟨.plist new_p marked, (m.plists p i).lock⟩) (role u) := by
  have hholds : (role t).holds = some (p, i) := by rw [ht]; rfl
  refine h.keeps_setBucket (h.onPath hholds) (h.not_held_other hholds hu) (h.publish_grows ht marked)
    fun {q} hq hl => (publish_linked hl).resolve_left ?_
  rintro rfl
  exact hu (h.made hq (by rw [ht]; rfl))

/-- The publication of a PList is the expansion of the trie. -/
lemma publish_trie : ∃ k d, (m.trie c).Leaf c.slot k d p ∧ c.slot d k = i ∧
    (m.trie c).Fresh new_p ∧ Trie.Rehashed c.slot d ((m.trie c).items p (c.slot d k)) (m.elists new_p) ∧
    (m.setBucket p i ⟨.plist new_p marked, (m.plists p i).lock⟩).trie c =
      (m.trie c).expand p (c.slot d k) new_p (m.elists new_p) := by
  have hok := h.ok t
  rw [ht] at hok
  obtain ⟨hb, hp, k, d, hpath, rfl, hr⟩ := hok
  have hchild : (m.plists p (c.slot d k)).base.child = none := by rw [hb, child_elist]
  have hlinked := path_linked hpath
  exact ⟨k, d, ⟨hpath, hchild⟩, rfl, hp.fresh, by rwa [items_of_linked hlinked hchild],
    trie_publish hchild hlinked hp⟩

lemma publish : Locks c (m.setBucket p i ⟨.plist new_p marked, (m.plists p i).lock⟩)
    (Function.update role t (.published p i)) := by
  have hholds : (role t).holds = some (p, i) := by rw [ht]; rfl
  have hlock := (h.ok t).lock hholds
  have hok := h.ok t
  rw [ht] at hok
  obtain ⟨k, d, hleaf, hs, hfresh, hr, htrie⟩ := h.publish_trie ht marked
  have hsound : (⟨.plist new_p marked, (m.plists p i).lock⟩ : Bucket A).Sound p i := by
    rw [hlock]
    exact .plist (by simp)
  have hm := h.memory.setBucket (h.onPath hholds) (h.publish_grows ht marked) hsound
    (fun w => h.landed hholds) (by
      rw [htrie]
      exact h.memory.tree.expand hleaf hfresh hr hok.2.1.younger)
  refine h.put_same hm ⟨by rw [setBucket_self, hlock], ?_⟩ (fun u hu => h.publish_keeps ht marked hu)
    hholds.symm rfl (fun q j => ?_) fun u q _ hq => by cases hq
  · rw [setBucket_self]
    exact ⟨_, _, rfl⟩
  · rw [setBucket_plists]
    split_ifs with hq
    · rw [hq.1, hq.2]
    · rfl

end Publish

/-- A client sends a lock word for the bucket it has locked. -/
lemma send (h : Locks c m role) (hholds : (role t).holds = some (p, i)) (hw : w ≠ .e_locked)
    (hs : (⟨(m.plists p i).base, w⟩ : Bucket A).Sound p i) :
    Locks c (m.send p i w) (Function.update role t .free) := by
  refine h.put (h.memory.send ((h.ok t).lock hholds) hw hs fun w => h.landed hholds) trivial
    (fun u _ => .send) (fun u b _ hb => by cases hb) (fun u q j w' hb hm => ?_)
    (fun q j hl => ?_) fun u q _ hq => by cases hq
  · by_cases hu : u = t
    · rw [hu, Function.update_self] at hb
      cases hb
    · rw [Function.update_of_ne hu] at hb
      rcases mem_send hm with hm | ⟨hq, -⟩
      · exact h.landed hb hm
      · rw [hq] at hb
        exact h.not_held_other hholds hu hb
  · rcases h.owned hl with ⟨u, hu⟩ | ⟨w', hm⟩
    · by_cases hut : u = t
      · rw [hut, hholds] at hu
        cases hu
        exact .inr ⟨w, List.mem_append_right _ (List.mem_singleton_self _)⟩
      · exact .inl ⟨u, by rwa [Function.update_of_ne hut]⟩
    · exact .inr ⟨w', List.mem_append_left _ hm⟩

lemma unlock (h : Locks c m role) (ht : role t = .locked p i) :
    Locks c (m.send p i .e_unlocked) (Function.update role t .free) := by
  have hok := h.ok t
  rw [ht] at hok
  refine h.send (by rw [ht]; rfl) (by simp) ?_
  rw [show m.plists p i = _ from hok]
  exact .elist (by simp)

lemma permUnlock (h : Locks c m role) (ht : role t = .published p i) :
    Locks c (m.send p i .p_unlocked) (Function.update role t .free) := by
  have hok := h.ok t
  rw [ht] at hok
  obtain ⟨-, q, marked, hb⟩ := hok
  refine h.send (by rw [ht]; rfl) (by simp) ?_
  rw [hb]
  exact .plist (by simp)

section Land

variable {n : ℕ} (h : Locks c m role) (hn : m.in_flight[n]? = some (p, i, w))

include h hn

lemma land_keeps (u : T) :
    Keeps c m ((m.drop n).setBucket p i ⟨(m.plists p i).base, w⟩) (role u) := by
  have hmem := List.mem_of_getElem? hn
  have hlock := (h.memory.in_flight hmem).1
  refine ⟨(h.memory.land hn).2, fun {q j} hq => ⟨setBucket_other _ ?_, rfl⟩, fun {q} hq => ?_⟩
  · rintro ⟨⟩
    exact h.landed hq hmem
  · have hne := h.made_ne hq (h.memory.onPath_of_lock (i := i) (by rw [hlock]; simp))
    exact ⟨Function.update_of_ne hne _ _, rfl, linked_setBucket rfl⟩

lemma land : Locks c ((m.drop n).setBucket p i ⟨(m.plists p i).base, w⟩) role := by
  have hmem := List.mem_of_getElem? hn
  obtain ⟨-, hw, -⟩ := h.memory.in_flight hmem
  refine ⟨(h.memory.land hn).1, fun u => (h.ok u).keep (h.land_keeps hn u), h.exclusive,
    fun hu hin => h.landed hu (mem_of_mem_drop hin), fun {q j} hlock => ?_, h.made⟩
  rw [setBucket_plists] at hlock
  split_ifs at hlock with hq
  · exact absurd hlock hw
  · refine (h.owned hlock).imp_right ?_
    rintro ⟨w', hin⟩
    refine ⟨w', ?_⟩
    obtain ⟨l, hl'⟩ := List.mem_iff_getElem?.mp hin
    refine List.mem_eraseIdx_iff_getElem?.mpr ⟨l, ?_, hl'⟩
    rintro rfl
    rw [hn] at hl'
    cases hl'
    exact hq ⟨rfl, rfl⟩

end Land

end Locks

end ObjectCache.Iht.Rdma
