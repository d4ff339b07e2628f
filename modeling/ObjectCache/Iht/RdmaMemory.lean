import ObjectCache.Iht.ListTrie
import ObjectCache.Iht.Rdma
import Mathlib.Tactic.Ring

/-! The PLists in memory are a trie: what a snapshot of a PList may say, what a write may do, and
what every write keeps. -/

set_option linter.unusedSectionVars false

namespace ObjectCache.Iht.Rdma

open Lib Cache

variable {A K V : Type} {c : Config A K} {m m' : Memory A K V} {p q : A} {i j : ℕ} {k : K} {v : V}

/-- The bucket of a key on each level of the descent. -/
def Config.slot (c : Config A K) (d : ℕ) (k : K) : ℕ := c.levelHash k (d + 1) (c.plist_size * 2 ^ d)

def Base.child : Base A → Option A
  | .elist _ _ => none
  | .plist p _ => some p

@[simp] lemma child_elist : (Base.elist p i).child = none := rfl

@[simp] lemma child_plist (marked : Bool) : (Base.plist p marked).child = some p := rfl

/-- The root, or a PList that a bucket leads to. -/
def Memory.Linked (c : Config A K) (m : Memory A K V) (p : A) : Prop :=
  p = c.root ∨ ∃ q i, (m.plists q i).base.child = some p

open Classical in
noncomputable def Memory.trie (c : Config A K) (m : Memory A K V) : Trie A K V where
  root := c.root
  link p i := (m.plists p i).base.child
  items p i := if m.Linked c p ∧ (m.plists p i).base.child = none then m.elists p i else []

/-- What bucket `i` of the PList at `p` can hold. -/
inductive Bucket.Sound (p : A) (i : ℕ) : Bucket A → Prop
  | elist {w} : w ≠ .p_unlocked → Sound p i ⟨.elist p i, w⟩
  | plist {q marked w} : w ≠ .e_unlocked → Sound p i ⟨.plist q marked, w⟩

/-- What a snapshot of the PList at `p` still tells of bucket `i`. -/
structure Bucket.Tells (m : Memory A K V) (p : A) (i : ℕ) (b : Bucket A) : Prop where
  base : b.base = .elist p i ∨ ∃ q marked, b.base = .plist q marked ∧
    (m.plists p i).base = .plist q marked
  lock : b.lock = .p_unlocked → (m.plists p i).lock = .p_unlocked ∧ b.base ≠ .elist p i

variable [DecidableEq A]

/-- `q` was allocated after `p`. -/
structure Younger (allocated : List A) (q p : A) : Prop where
  new : q ∈ allocated
  old : p ∈ allocated
  lt : allocated.idxOf q < allocated.idxOf p

lemma Younger.cons {l : List A} {r : A} (h : Younger l q p) (hr : r ∉ l) : Younger (r :: l) q p where
  new := List.mem_cons_of_mem _ h.new
  old := List.mem_cons_of_mem _ h.old
  lt := by
    have hq : r ≠ q := fun he => hr (he ▸ h.new)
    have hp : r ≠ p := fun he => hr (he ▸ h.old)
    rw [List.idxOf_cons_ne _ hq, List.idxOf_cons_ne _ hp]
    exact Nat.succ_lt_succ h.lt

/-- No write takes back a link or a permanent unlock. -/
structure Grows (m m' : Memory A K V) : Prop where
  base : ∀ {p i q marked}, (m.plists p i).base = .plist q marked →
    (m'.plists p i).base = .plist q marked
  lock : ∀ {p i}, (m.plists p i).lock = .p_unlocked → (m'.plists p i).lock = .p_unlocked
  age : ∀ {p q}, Younger m.allocated q p → Younger m'.allocated q p

lemma Grows.refl : Grows m m := ⟨id, id, id⟩

section Sound

variable {b : Bucket A}

lemma Bucket.Sound.base_of_e_unlocked (h : b.Sound p i) (hl : b.lock = .e_unlocked) :
    b.base = .elist p i := by
  cases h with
  | elist => rfl
  | plist hw => exact absurd hl hw

lemma Bucket.Sound.base_of_p_unlocked (h : b.Sound p i) (hl : b.lock = .p_unlocked) :
    ∃ q marked, b.base = .plist q marked := by
  cases h with
  | elist hw => exact absurd hl hw
  | plist => exact ⟨_, _, rfl⟩

lemma Bucket.Sound.base_of_child (h : b.Sound p i) (hc : b.base.child = none) :
    b.base = .elist p i := by
  cases h with
  | elist => rfl
  | plist => cases hc

lemma base_of_child (hc : b.base.child = some q) : ∃ marked, b.base = .plist q marked := by
  obtain ⟨base, lock⟩ := b
  cases base with
  | elist => cases hc
  | plist r marked =>
    cases hc
    exact ⟨marked, rfl⟩

lemma Bucket.Sound.tells (h : (m.plists p i).Sound p i) :
    (m.plists p i).Tells m p i := by
  refine ⟨?_, fun hl => ⟨hl, ?_⟩⟩
  · generalize m.plists p i = b at h
    cases h with
    | elist => exact .inl rfl
    | plist => exact .inr ⟨_, _, rfl, rfl⟩
  · obtain ⟨q, marked, hb⟩ := h.base_of_p_unlocked hl
    rw [hb]
    simp

lemma Bucket.Tells.grows (h : b.Tells m p i) (hg : Grows m m') : b.Tells m' p i where
  base := h.base.imp_right fun ⟨q, marked, hb, hm⟩ => ⟨q, marked, hb, hg.base hm⟩
  lock hl := ⟨hg.lock (h.lock hl).1, (h.lock hl).2⟩

/-- A snapshot of an EList bucket names the EList. -/
lemma Bucket.Tells.elist (h : b.Tells m p i) (hm : (m.plists p i).base = .elist p i) :
    b.base = .elist p i := by
  rcases h.base with hb | ⟨q, marked, -, hq⟩
  · exact hb
  · rw [hm] at hq
    cases hq

/-- A permanently unlocked bucket leads where every snapshot of it says. -/
lemma Bucket.Tells.plist (h : b.Tells m p i) (hl : b.lock = .p_unlocked) :
    ∃ q marked, b.base = .plist q marked ∧ (m.plists p i).base = .plist q marked :=
  h.base.resolve_left (h.lock hl).2

end Sound

/-! ### The tree of PLists -/

/-- A bucket that the path of some key leads through. -/
def OnPath (c : Config A K) (m : Memory A K V) (p : A) (i : ℕ) : Prop :=
  ∃ k d, (m.trie c).path c.slot k d = some p ∧ c.slot d k = i

structure Rooted (c : Config A K) (t : Trie A K V) (allocated : List A) : Prop where
  placed : t.Placed c.slot
  source : ∀ {p i p' i' q}, t.link p i = some q → t.link p' i' = some q → p = p' ∧ i = i'
  younger : ∀ {p i q}, t.link p i = some q → Younger allocated q p

structure Memory.Inv (c : Config A K) (m : Memory A K V) : Prop where
  tree : Rooted c (m.trie c) m.allocated
  root : c.root ∈ m.allocated
  sound : ∀ p i, (m.plists p i).Sound p i
  touched : ∀ {p i}, m.plists p i ≠ initPList p i → OnPath c m p i
  copy : ∀ {p curr}, curr ∈ m.history p → ∀ i, (curr i).Tells m p i
  unmade : ∀ {p}, p ∉ m.allocated → m.history p = [] ∧ m.plists p = initPList p
  in_flight : ∀ {p i w}, (p, i, w) ∈ m.in_flight →
    (m.plists p i).lock = .e_locked ∧ w ≠ .e_locked ∧
      (⟨(m.plists p i).base, w⟩ : Bucket A).Sound p i
  once : (m.in_flight.map fun f => (f.1, f.2.1)).Nodup
  full : ∀ p i, (m.elists p i).length ≤ c.elist_size

lemma Grows.path (hg : Grows m m') {d : ℕ} (h : (m.trie c).path c.slot k d = some p) :
    (m'.trie c).path c.slot k d = some p := by
  induction d generalizing p with
  | zero => exact h
  | succ d ih =>
    obtain ⟨q, hq, hl⟩ := Trie.path_succ.mp h
    refine Trie.path_succ.mpr ⟨q, ih hq, ?_⟩
    obtain ⟨marked, hb⟩ := base_of_child hl
    simp only [Memory.trie, hg.base hb, child_plist]

lemma OnPath.grows (h : OnPath c m p i) (hg : Grows m m') : OnPath c m' p i := by
  obtain ⟨k, d, hp, hs⟩ := h
  exact ⟨k, d, hg.path hp, hs⟩

lemma Memory.Inv.path_mem (h : m.Inv c) {d : ℕ} (hp : (m.trie c).path c.slot k d = some p) :
    p ∈ m.allocated := by
  cases d with
  | zero =>
    cases hp
    exact h.root
  | succ d =>
    obtain ⟨q, -, hl⟩ := Trie.path_succ.mp hp
    exact (h.tree.younger hl).new

lemma items_of_linked (hl : m.Linked c p) (hn : (m.plists p i).base.child = none) :
    (m.trie c).items p i = m.elists p i :=
  if_pos ⟨hl, hn⟩

lemma items_of_not (h : ¬ (m.Linked c p ∧ (m.plists p i).base.child = none)) :
    (m.trie c).items p i = [] :=
  if_neg h

/-- The same links, and the same pairs where the links lead. -/
lemma trie_eq (hl : ∀ q j, (m'.plists q j).base.child = (m.plists q j).base.child)
    (hi : ∀ q j, m.Linked c q → (m.plists q j).base.child = none → m'.elists q j = m.elists q j) :
    m'.trie c = m.trie c := by
  have hlinked : ∀ q, m'.Linked c q ↔ m.Linked c q := fun q => by simp only [Memory.Linked, hl]
  refine Trie.ext rfl (funext fun q => funext (hl q)) (funext fun q => funext fun j => ?_)
  by_cases h : m.Linked c q ∧ (m.plists q j).base.child = none
  · rw [items_of_linked h.1 h.2, items_of_linked ((hlinked q).mpr h.1) ((hl q j).trans h.2)]
    exact hi q j h.1 h.2
  · rw [items_of_not h, items_of_not]
    rwa [hlinked, hl]

lemma Memory.Inv.onPath_of_lock (h : m.Inv c) (hl : (m.plists p i).lock ≠ .e_unlocked) :
    OnPath c m p i := by
  refine h.touched fun hb => hl ?_
  rw [hb]
  rfl

lemma Memory.Inv.onPath_of_child (h : m.Inv c) (hl : (m.plists p i).base.child = some q) :
    OnPath c m p i := by
  refine h.touched fun hb => ?_
  rw [hb] at hl
  cases hl

lemma path_linked {d : ℕ} (hp : (m.trie c).path c.slot k d = some p) : m.Linked c p := by
  cases d with
  | zero =>
    cases hp
    exact .inl rfl
  | succ d =>
    obtain ⟨q, -, hl⟩ := Trie.path_succ.mp hp
    exact .inr ⟨q, _, hl⟩

/-! ### Writing a bucket -/

lemma setBucket_plists (b : Bucket A) (q : A) (j : ℕ) :
    (m.setBucket p i b).plists q j = if q = p ∧ j = i then b else m.plists q j := by
  by_cases hq : q = p
  · subst hq
    by_cases hj : j = i
    · simp [Memory.setBucket, hj]
    · simp [Memory.setBucket, hj]
  · simp [Memory.setBucket, hq]

lemma setBucket_self (b : Bucket A) : (m.setBucket p i b).plists p i = b := by
  rw [setBucket_plists, if_pos ⟨rfl, rfl⟩]

lemma setBucket_other (b : Bucket A) (h : (q, j) ≠ (p, i)) :
    (m.setBucket p i b).plists q j = m.plists q j := by
  rw [setBucket_plists, if_neg]
  rintro ⟨rfl, rfl⟩
  exact h rfl

lemma mem_setBucket_history {b : Bucket A} {curr : PList A}
    (h : curr ∈ (m.setBucket p i b).history q) :
    curr ∈ m.history q ∨ q = p ∧ curr = (m.setBucket p i b).plists p := by
  by_cases hq : q = p
  · subst hq
    simp only [Memory.setBucket, Function.update_self, List.mem_cons] at h
    rcases h with rfl | h
    · exact .inr ⟨rfl, by simp [Memory.setBucket]⟩
    · exact .inl h
  · simp only [Memory.setBucket, Function.update_of_ne hq] at h
    exact .inl h

/-- A write that keeps links and permanent unlocks. -/
lemma grows_setBucket {b : Bucket A}
    (hbase : ∀ {q marked}, (m.plists p i).base = .plist q marked → b.base = .plist q marked)
    (hlock : (m.plists p i).lock = .p_unlocked → b.lock = .p_unlocked) :
    Grows m (m.setBucket p i b) where
  age := id
  base {q j r marked} hb := by
    rw [setBucket_plists]
    split_ifs with hq
    · obtain ⟨rfl, rfl⟩ := hq
      exact hbase hb
    · exact hb
  lock {q j} hl := by
    rw [setBucket_plists]
    split_ifs with hq
    · obtain ⟨rfl, rfl⟩ := hq
      exact hlock hl
    · exact hl

lemma setBucket_base {b : Bucket A} (hb : b.base = (m.plists p i).base) (q : A) (j : ℕ) :
    ((m.setBucket p i b).plists q j).base = (m.plists q j).base := by
  rw [setBucket_plists]
  split_ifs with hq
  · rw [hb, hq.1, hq.2]
  · rfl

lemma trie_setBucket {b : Bucket A} (hb : b.base = (m.plists p i).base) :
    (m.setBucket p i b).trie c = m.trie c :=
  trie_eq (fun q j => congrArg Base.child (setBucket_base hb q j)) fun _ _ _ _ => rfl

lemma OnPath.linked (h : OnPath c m p i) : m.Linked c p := by
  obtain ⟨k, d, hp, -⟩ := h
  exact path_linked hp

lemma OnPath.mem (h : OnPath c m p i) (hm : m.Inv c) : p ∈ m.allocated := by
  obtain ⟨k, d, hp, -⟩ := h
  exact hm.path_mem hp

lemma Memory.Inv.setBucket (h : m.Inv c) {b : Bucket A} (ho : OnPath c m p i)
    (hg : Grows m (m.setBucket p i b)) (hs : b.Sound p i) (hf : ∀ w, (p, i, w) ∉ m.in_flight)
    (ht : Rooted c ((m.setBucket p i b).trie c) m.allocated) : (m.setBucket p i b).Inv c := by
  have hsound : ∀ q j, ((m.setBucket p i b).plists q j).Sound q j := by
    intro q j
    rw [setBucket_plists]
    split_ifs with hq
    · rw [hq.1, hq.2]
      exact hs
    · exact h.sound q j
  refine ⟨ht, h.root, hsound, fun {q j} hb => ?_, fun {q curr} hc j => ?_, fun {q} hq => ?_,
    fun {q j w} hm => ?_, h.once, h.full⟩
  · by_cases hq : q = p ∧ j = i
    · rw [hq.1, hq.2]
      exact ho.grows hg
    · rw [setBucket_plists, if_neg hq] at hb
      exact (h.touched hb).grows hg
  · rcases mem_setBucket_history hc with hc | ⟨rfl, rfl⟩
    · exact (h.copy hc j).grows hg
    · exact (hsound q j).tells
  · have hne : q ≠ p := by
      rintro rfl
      exact hq (ho.mem h)
    have hold := h.unmade hq
    simp only [Memory.setBucket, Function.update_of_ne hne]
    exact hold
  · have hne : (q, j) ≠ (p, i) := by
      rintro ⟨⟩
      exact hf w hm
    rw [setBucket_other b hne]
    exact h.in_flight hm

/-- A write of the lock word alone. -/
lemma Memory.Inv.setLock (h : m.Inv c) {w : LockState} (ho : OnPath c m p i)
    (hl : (m.plists p i).lock ≠ .p_unlocked)
    (hs : (⟨(m.plists p i).base, w⟩ : Bucket A).Sound p i) (hf : ∀ w, (p, i, w) ∉ m.in_flight) :
    (m.setBucket p i ⟨(m.plists p i).base, w⟩).Inv c ∧
      Grows m (m.setBucket p i ⟨(m.plists p i).base, w⟩) := by
  have hg : Grows m (m.setBucket p i ⟨(m.plists p i).base, w⟩) :=
    grows_setBucket id fun hw => absurd hw hl
  refine ⟨h.setBucket ho hg hs hf ?_, hg⟩
  rw [trie_setBucket (b := ⟨_, w⟩) rfl]
  exact h.tree

/-! ### Writing an EList -/

lemma setElist_elists (e : EList K V) (q : A) (j : ℕ) :
    (m.setElist p i e).elists q j = if q = p ∧ j = i then e else m.elists q j := by
  by_cases hq : q = p
  · subst hq
    by_cases hj : j = i
    · simp [Memory.setElist, hj]
    · simp [Memory.setElist, hj]
  · simp [Memory.setElist, hq]

lemma setElist_other (e : EList K V) (h : (q, j) ≠ (p, i)) :
    (m.setElist p i e).elists q j = m.elists q j := by
  rw [setElist_elists, if_neg]
  rintro ⟨rfl, rfl⟩
  exact h rfl

lemma grows_setElist (e : EList K V) : Grows m (m.setElist p i e) := ⟨id, id, id⟩

lemma trie_setElist (hl : m.Linked c p) (hn : (m.plists p i).base.child = none) (e : EList K V) :
    (m.setElist p i e).trie c = (m.trie c).setItems p i e := by
  refine Trie.ext rfl rfl (funext fun q => funext fun j => ?_)
  rw [Trie.setItems_items]
  split_ifs with hq
  · obtain ⟨rfl, rfl⟩ := hq
    have hitems : ((m.setElist q j e).trie c).items q j = (m.setElist q j e).elists q j :=
      items_of_linked hl hn
    rw [hitems, setElist_elists, if_pos ⟨rfl, rfl⟩]
  · by_cases h : m.Linked c q ∧ (m.plists q j).base.child = none
    · have hitems : ((m.setElist p i e).trie c).items q j = (m.setElist p i e).elists q j :=
        items_of_linked h.1 h.2
      rw [hitems, items_of_linked h.1 h.2, setElist_elists, if_neg hq]
    · rw [items_of_not h]
      exact items_of_not h

lemma Rooted.setItems {t : Trie A K V} {allocated : List A} (h : Rooted c t allocated)
    {l : List (K × V)} (hp : (t.setItems p i l).Placed c.slot) :
    Rooted c (t.setItems p i l) allocated where
  placed := hp
  source := h.source
  younger := h.younger

lemma Memory.Inv.setElist (h : m.Inv c) {e : EList K V} (hl : m.Linked c p)
    (hn : (m.plists p i).base.child = none) (he : e.length ≤ c.elist_size)
    (hp : ((m.trie c).setItems p i e).Placed c.slot) : (m.setElist p i e).Inv c where
  tree := by
    rw [trie_setElist hl hn]
    exact h.tree.setItems hp
  root := h.root
  sound := h.sound
  touched hb := (h.touched hb).grows (grows_setElist e)
  copy hc j := (h.copy hc j).grows (grows_setElist e)
  unmade := h.unmade
  in_flight := h.in_flight
  once := h.once
  full q j := by
    rw [setElist_elists]
    split_ifs
    · exact he
    · exact h.full q j

/-! ### A lock word on its way -/

lemma grows_send (w : LockState) : Grows m (m.send p i w) := ⟨id, id, id⟩

lemma mem_send {w w' : LockState} (h : (q, j, w') ∈ (m.send p i w).in_flight) :
    (q, j, w') ∈ m.in_flight ∨ (q, j) = (p, i) ∧ w' = w := by
  rcases List.mem_append.mp h with h | h
  · exact .inl h
  · cases List.mem_singleton.mp h
    exact .inr ⟨rfl, rfl⟩

lemma Memory.Inv.send (h : m.Inv c) {w : LockState}
    (hl : (m.plists p i).lock = .e_locked) (hw : w ≠ .e_locked)
    (hs : (⟨(m.plists p i).base, w⟩ : Bucket A).Sound p i) (hf : ∀ w, (p, i, w) ∉ m.in_flight) :
    (m.send p i w).Inv c where
  tree := h.tree
  root := h.root
  sound := h.sound
  touched hb := (h.touched hb).grows (grows_send w)
  copy hc j := (h.copy hc j).grows (grows_send w)
  unmade := h.unmade
  in_flight hm := by
    rcases mem_send hm with hm | ⟨hq, rfl⟩
    · exact h.in_flight hm
    · cases hq
      exact ⟨hl, hw, hs⟩
  once := by
    rw [Memory.send, List.map_append, List.nodup_append_comm]
    refine List.nodup_cons.mpr ⟨fun hm => ?_, h.once⟩
    obtain ⟨⟨q, j, w'⟩, hf', hq⟩ := List.mem_map.mp hm
    cases hq
    exact hf w' hf'
  full := h.full

/-- The memory that a lock word on its way has left. -/
def Memory.drop (m : Memory A K V) (n : ℕ) : Memory A K V :=
  { m with in_flight := m.in_flight.eraseIdx n }

lemma grows_drop (n : ℕ) : Grows m (m.drop n) := ⟨id, id, id⟩

lemma mem_of_mem_drop {n : ℕ} {f : A × ℕ × LockState} (h : f ∈ (m.drop n).in_flight) :
    f ∈ m.in_flight :=
  (List.eraseIdx_sublist m.in_flight n).subset h

lemma Memory.Inv.drop (h : m.Inv c) (n : ℕ) : (m.drop n).Inv c where
  tree := h.tree
  root := h.root
  sound := h.sound
  touched hb := (h.touched hb).grows (grows_drop n)
  copy hc j := (h.copy hc j).grows (grows_drop n)
  unmade := h.unmade
  in_flight hm := h.in_flight (mem_of_mem_drop hm)
  once := h.once.sublist ((List.eraseIdx_sublist m.in_flight n).map _)
  full := h.full

/-- The word that lands is the only one for its bucket. -/
lemma Memory.Inv.not_mem_drop (h : m.Inv c) {n : ℕ} {w w' : LockState}
    (hn : m.in_flight[n]? = some (p, i, w)) : (p, i, w') ∉ (m.drop n).in_flight := by
  intro hm
  obtain ⟨l, hne, hl⟩ := List.mem_eraseIdx_iff_getElem?.mp hm
  have hlt := (List.getElem?_eq_some_iff.mp hl).1
  refine hne ((List.getElem?_inj (by rwa [List.length_map]) h.once).mp ?_)
  rw [List.getElem?_map, List.getElem?_map, hl, hn]
  rfl

/-- A lock word lands. -/
lemma Memory.Inv.land (h : m.Inv c) {n : ℕ} {w : LockState}
    (hn : m.in_flight[n]? = some (p, i, w)) :
    ((m.drop n).setBucket p i ⟨(m.plists p i).base, w⟩).Inv c ∧
      Grows m ((m.drop n).setBucket p i ⟨(m.plists p i).base, w⟩) := by
  obtain ⟨hl, -, hs⟩ := h.in_flight (List.mem_of_getElem? hn)
  have hne : ((m.drop n).plists p i).lock ≠ .p_unlocked := by
    intro hw
    rw [show (m.plists p i).lock = .p_unlocked from hw] at hl
    cases hl
  have ho := (h.onPath_of_lock (by rw [hl]; simp)).grows (grows_drop n)
  obtain ⟨hi, hg⟩ := (h.drop n).setLock ho hne hs fun w' => h.not_mem_drop hn
  exact ⟨hi, hg.base, hg.lock, hg.age⟩

lemma trie_land {n : ℕ} {w : LockState} :
    ((m.drop n).setBucket p i ⟨(m.plists p i).base, w⟩).trie c = m.trie c :=
  trie_setBucket (m := m.drop n) (b := ⟨(m.plists p i).base, w⟩) rfl

/-! ### A new PList -/

variable {new_p : A} {count depth : ℕ} {source : EList K V}

lemma Memory.Inv.link_mem (h : m.Inv c) (hl : (m.plists p i).base.child = some q) :
    q ∈ m.allocated :=
  (h.tree.younger hl).new

lemma Memory.Inv.linked_mem (h : m.Inv c) (hl : m.Linked c p) : p ∈ m.allocated := by
  rcases hl with rfl | ⟨q, i, hl⟩
  · exact h.root
  · exact h.link_mem hl

lemma rehash_plists (h : m.Inv c) (hn : new_p ∉ m.allocated) :
    (m.rehash c count depth source new_p).plists = m.plists := by
  have hinit := (h.unmade hn).2
  rw [Memory.rehash, ← hinit]
  exact Function.update_eq_self new_p m.plists

lemma rehash_elists (hq : q ≠ new_p) :
    (m.rehash c count depth source new_p).elists q = m.elists q :=
  Function.update_of_ne hq _ _

lemma grows_rehash (h : m.Inv c) (hn : new_p ∉ m.allocated) :
    Grows m (m.rehash c count depth source new_p) := by
  refine ⟨fun hb => ?_, fun hl => ?_, fun ha => ha.cons hn⟩
  · rwa [rehash_plists h hn]
  · rwa [rehash_plists h hn]

lemma trie_rehash (h : m.Inv c) (hn : new_p ∉ m.allocated) :
    (m.rehash c count depth source new_p).trie c = m.trie c := by
  refine trie_eq (fun q j => by rw [rehash_plists h hn]) fun q j hq _ => ?_
  rw [rehash_elists]
  rintro rfl
  exact hn (h.linked_mem hq)

lemma length_spread (c : Config A K) (e : EList K V) (j : ℕ) :
    (spread c count depth e j).length ≤ e.length :=
  List.length_filter_le _ _

lemma Memory.Inv.rehash (h : m.Inv c) (hn : new_p ∉ m.allocated)
    (hs : source.length ≤ c.elist_size) : (m.rehash c count depth source new_p).Inv c := by
  have hplists : (m.rehash c count depth source new_p).plists = m.plists := rehash_plists h hn
  have hg : Grows m (m.rehash c count depth source new_p) := grows_rehash h hn
  refine ⟨?_, List.mem_cons_of_mem _ h.root, fun q j => ?_, fun {q j} hb => ?_,
    fun {q curr} hc j => ?_, fun {q} hq => ?_, fun {q j w} hm => ?_, h.once, fun q j => ?_⟩
  · rw [trie_rehash h hn]
    exact ⟨h.tree.placed, h.tree.source, fun hl => (h.tree.younger hl).cons hn⟩
  · rw [hplists]
    exact h.sound q j
  · rw [hplists] at hb
    exact (h.touched hb).grows hg
  · by_cases hq : q = new_p
    · subst hq
      simp only [Memory.rehash, Function.update_self, List.mem_singleton] at hc
      subst hc
      exact ⟨.inl rfl, by simp [initPList]⟩
    · simp only [Memory.rehash, Function.update_of_ne hq] at hc
      exact (h.copy hc j).grows hg
  · have hne : q ≠ new_p := by
      rintro rfl
      exact hq List.mem_cons_self
    have hold := h.unmade fun hm => hq (List.mem_cons_of_mem _ hm)
    rw [hplists]
    simp only [Memory.rehash, Function.update_of_ne hne]
    exact hold
  · rw [hplists]
    exact h.in_flight hm
  · by_cases hq : q = new_p
    · subst hq
      simp only [Memory.rehash, Function.update_self]
      exact (length_spread c source j).trans hs
    · rw [rehash_elists hq]
      exact h.full q j

/-- A PList that only the client that made it knows. -/
structure Private (c : Config A K) (m : Memory A K V) (p new_p : A) : Prop where
  unlinked : ¬ m.Linked c new_p
  plist : m.plists new_p = initPList new_p
  younger : Younger m.allocated new_p p

lemma private_rehash (h : m.Inv c) (hn : new_p ∉ m.allocated) (hp : p ∈ m.allocated) :
    Private c (m.rehash c count depth source new_p) p new_p where
  unlinked hl := by
    simp only [Memory.Linked, rehash_plists h hn] at hl
    exact hn (h.linked_mem hl)
  plist := by rw [rehash_plists h hn, (h.unmade hn).2]
  younger := by
    have hne : new_p ≠ p := by
      rintro rfl
      exact hn hp
    refine ⟨List.mem_cons_self, List.mem_cons_of_mem _ hp, ?_⟩
    simp only [Memory.rehash, List.idxOf_cons_self, List.idxOf_cons_ne _ hne]
    omega

lemma Private.fresh (h : Private c m p new_p) : (m.trie c).Fresh new_p where
  root hr := h.unlinked (.inl hr)
  unlinked q j hl := h.unlinked (.inr ⟨q, j, hl⟩)
  link j := by
    simp only [Memory.trie, h.plist]
    rfl
  items j := items_of_not fun hl => h.unlinked hl.1

lemma Private.ne (h : Private c m p new_p) (hp : m.Linked c p) : new_p ≠ p := by
  rintro rfl
  exact h.unlinked hp

/-! ### Publishing it -/

lemma Rooted.expand {t : Trie A K V} {allocated : List A} (h : Rooted c t allocated) {d : ℕ}
    (hl : t.Leaf c.slot k d p) (hb : t.Fresh new_p) {f : ℕ → List (K × V)}
    (hf : Trie.Rehashed c.slot d (t.items p (c.slot d k)) f) (hy : Younger allocated new_p p) :
    Rooted c (t.expand p (c.slot d k) new_p f) allocated where
  placed := h.placed.expand hl hb hf
  source {q j q' j' r} hq hq' := by
    rw [Trie.expand_link] at hq hq'
    split_ifs at hq hq' with hc hc'
    · exact ⟨hc.1.trans hc'.1.symm, hc.2.trans hc'.2.symm⟩
    · cases hq
      exact absurd hq' (hb.unlinked q' j')
    · cases hq'
      exact absurd hq (hb.unlinked q j)
    · exact h.source hq hq'
  younger {q j r} hq := by
    rw [Trie.expand_link] at hq
    split_ifs at hq with hc
    · cases hq
      rw [hc.1]
      exact hy
    · exact h.younger hq

section Publish

variable {marked : Bool} {w : LockState}

lemma publish_linked : (m.setBucket p i ⟨.plist new_p marked, w⟩).Linked c q →
    q = new_p ∨ m.Linked c q := by
  rintro (hr | ⟨r, j, hl⟩)
  · exact .inr (.inl hr)
  · rw [setBucket_plists] at hl
    split_ifs at hl with hr
    · exact .inl (Option.some.inj hl).symm
    · exact .inr (.inr ⟨r, j, hl⟩)

lemma linked_publish (hn : (m.plists p i).base.child = none) (hq : m.Linked c q) :
    (m.setBucket p i ⟨.plist new_p marked, w⟩).Linked c q := by
  rcases hq with rfl | ⟨r, j, hl⟩
  · exact .inl rfl
  · refine .inr ⟨r, j, ?_⟩
    rw [setBucket_plists, if_neg]
    · exact hl
    · rintro ⟨rfl, rfl⟩
      rw [hn] at hl
      cases hl

lemma trie_publish (hn : (m.plists p i).base.child = none) (hl : m.Linked c p)
    (hp : Private c m p new_p) :
    (m.setBucket p i ⟨.plist new_p marked, w⟩).trie c =
      (m.trie c).expand p i new_p (m.elists new_p) := by
  have hne := hp.ne hl
  have hchild : ∀ q j, ((m.setBucket p i ⟨.plist new_p marked, w⟩).plists q j).base.child =
      if q = p ∧ j = i then some new_p else (m.plists q j).base.child := by
    intro q j
    rw [setBucket_plists]
    split_ifs <;> rfl
  refine Trie.ext rfl (funext fun q => funext fun j => ?_) (funext fun q => funext fun j => ?_)
  · rw [Trie.expand_link]
    exact hchild q j
  · rw [Trie.expand_items]
    split_ifs with hq hq'
    · subst hq
      refine items_of_linked (.inr ⟨p, i, ?_⟩) ?_
      · rw [hchild, if_pos ⟨rfl, rfl⟩]
      · rw [hchild, if_neg fun h => hne h.1, hp.plist]
        rfl
    · refine items_of_not fun h => ?_
      have hsome := h.2
      rw [hchild, if_pos hq'] at hsome
      cases hsome
    · by_cases h : m.Linked c q ∧ (m.plists q j).base.child = none
      · rw [items_of_linked h.1 h.2]
        refine items_of_linked (linked_publish hn h.1) ?_
        rw [hchild, if_neg hq']
        exact h.2
      · rw [items_of_not h]
        refine items_of_not fun h' => h ⟨(publish_linked h'.1).resolve_left hq, ?_⟩
        have hnone := h'.2
        rwa [hchild, if_neg hq'] at hnone

lemma grows_publish (hn : (m.plists p i).base.child = none) (hw : (m.plists p i).lock = w) :
    Grows m (m.setBucket p i ⟨.plist new_p marked, w⟩) := by
  refine grows_setBucket (fun hb => ?_) fun hl => hw.symm.trans hl
  rw [hb] at hn
  cases hn

end Publish

end ObjectCache.Iht.Rdma
