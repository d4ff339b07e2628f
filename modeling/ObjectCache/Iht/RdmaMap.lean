import ObjectCache.Iht.RdmaInv

/-! Every step of the table is a step of the finite map or none, and a table at rest holds every key
once. -/

set_option linter.unusedSectionVars false

namespace ObjectCache.Iht.Rdma

open Lib Cache

variable {A K V T : Type} [DecidableEq A] [DecidableEq K] [DecidableEq T] {c : Config A K}
  {s s' : State A K V T} {m : Memory A K V} {t : T} {x : Cursor A K V} {curr : PList A}
  {pc : Pc A K V} {f : K → Option V} {h : History T (MapOp K V) (Option V)}

abbrev Abstract (K V T : Type) := Atomic (K → Option V) T (MapOp K V) (Option V)

/-- Where a client stands for an observer: an update has taken effect once its write is made, a
lookup once its list is read. -/
def Pc.status (c : Config A K) : Pc A K V → Status (MapOp K V) (Option V)
  | .idle => .idle
  | .extendedRead x | .acquire x _ | .readElist x _ | .writeElist x _ _ _ | .rehash x _
  | .changePointer x _ | .permUnlock x | .invalidate x =>
    if c.free x.op then .idle else .called x.op
  | .unlock x ret => if c.free x.op then .idle else .done ret
  | .done op ret => if c.free op then .idle else .done ret

structure Refines (c : Config A K) (s : State A K V T) (a : Abstract K V T) : Prop where
  inv : s.Inv c
  holds : Holds c.slot (s.memory.trie c) a.state
  status : ∀ t, a.status t = (s.pc t).status c

variable {a : Abstract K V T}

/-- A step that changes one client's status, and the map. -/
lemma Refines.put (hr : Refines c s a) (hi : (s.put m t pc).Inv c) (hf : Holds c.slot (m.trie c) f)
    {st : Status (MapOp K V) (Option V)} (hst : pc.status c = st) :
    Refines c (s.put m t pc) ({ a with state := f }.setStatus t st) where
  inv := hi
  holds := hf
  status u := by
    by_cases hu : u = t
    · subst hu
      rw [put_pc_self, hst]
      exact Function.update_self ..
    · rw [put_pc_other hu, ← hr.status u]
      exact Function.update_of_ne hu ..

/-- A step that no observer sees. -/
lemma Refines.hidden (hr : Refines c s a) (hi : (s.put m t pc).Inv c)
    (hf : Holds c.slot (m.trie c) a.state) (hst : pc.status c = (s.pc t).status c) :
    Refines c (s.put m t pc) a where
  inv := hi
  holds := hf
  status u := by
    by_cases hu : u = t
    · subst hu
      rw [put_pc_self, hst]
      exact hr.status u
    · rw [put_pc_other hu]
      exact hr.status u

/-- The step at which an operation takes effect. -/
lemma Refines.commit (hr : Refines c s a) (ha : Atomic.Run (mapObject K V) h a)
    (hi : (s.put m t pc).Inv c) {op : MapOp K V} (ht : (s.pc t).status c = .called op)
    (hf : Holds c.slot (m.trie c) (op.apply a.state))
    (hst : pc.status c = .done (a.state op.key)) :
    ∃ a', Atomic.Run (mapObject K V) h a' ∧ Refines c (s.put m t pc) a' := by
  have hcalled := (hr.status t).trans ht
  exact ⟨_, .commit ha hcalled, hr.put hi hf hst⟩

/-- The list read under the lock answers for the map. -/
lemma status_withElist (curr : PList A) {e : EList K V} (hf : c.free x.op = false)
    (hl : e.lookup x.op.key = f x.op.key) :
    (withElist c x curr e).status c = .called x.op ∨
      (withElist c x curr e).status c = .done (f x.op.key) ∧ x.op.apply f = f := by
  obtain ⟨op, parent_ptr, marked, depth, count⟩ := x
  dsimp only at hl hf ⊢
  rw [withElist]
  cases op with
  | contains k =>
    simp only [Config.free] at hf
    right
    simp only [MapOp.key] at hl
    simp only [hf, Pc.status, Config.free, MapOp.key, hl]
    exact ⟨rfl, rfl⟩
  | insert k v =>
    simp only [MapOp.key] at hl
    dsimp only
    split_ifs with hk hlen
    · right
      rw [hl] at hk ⊢
      exact ⟨rfl, apply_insert_of_some hk⟩
    · exact .inl rfl
    · exact .inl rfl
  | remove k =>
    simp only [MapOp.key] at hl
    dsimp only
    split_ifs with hk
    · exact .inl rfl
    · right
      have hnone : f k = none := by rw [← hl]; simpa using hk
      exact ⟨by rw [MapOp.key, hnone]; rfl, apply_remove_of_none hnone⟩

lemma status_of_updates (hf : c.free x.op = false) :
    (if c.free x.op then .idle else .called x.op : Status (MapOp K V) (Option V)) = .called x.op := by
  rw [hf]
  rfl

lemma Refines.step (hr : Refines c s a) (ha : Atomic.Run (mapObject K V) h a) {act : Act A K V T}
    (hs : Step c s act s') : ∃ a', Atomic.Run (mapObject K V) (h ++ (observe c s act).toList) a' ∧
      Refines c s' a' := by
  have hi := hr.inv.step hs
  cases hs with
  | @call t op ht =>
    have hidle : a.status t = .idle := by rw [hr.status t, ht]; rfl
    by_cases hf : c.free op
    · refine ⟨a, by simpa [observe, hf] using ha, hr.hidden hi hr.holds ?_⟩
      rw [ht]
      exact if_pos hf
    · refine ⟨_, by simpa [observe, hf] using Atomic.Run.call ha hidle, ?_⟩
      exact hr.put hi hr.holds (if_neg hf)
  | @read t age x curr pc ht hc hd =>
    refine ⟨a, by simpa [observe] using ha, hr.hidden hi hr.holds ?_⟩
    rw [ht]
    cases hd <;> rfl
  | @acquire t x curr ht hl =>
    refine ⟨a, by simpa [observe] using ha, hr.hidden hi ?_ (by rw [ht]; rfl)⟩
    rw [trie_setBucket (b := ⟨_, .e_locked⟩) rfl]
    exact hr.holds
  | calcified ht hl =>
    exact ⟨a, by simpa [observe] using ha, hr.hidden hi hr.holds (by rw [ht]; rfl)⟩
  | spin ht hl => exact ⟨a, by simpa [observe] using ha, hr⟩
  | @readElist t x curr p i ht hb =>
    have hok := hr.inv.ok t
    rw [ht] at hok
    by_cases hf : c.free x.op
    · refine ⟨a, by simpa [observe] using ha, hr.hidden hi hr.holds ?_⟩
      rw [withElist_free hf, ht]
      exact (if_pos hf).trans (if_pos hf).symm
    · obtain ⟨hh, hn⟩ := hok.readElist hf
      rw [hn] at hb
      cases hb
      have hrole : (s.pc t).role c = .locked x.parent_ptr (c.bucket x) := by
        rw [ht]
        exact if_neg hf
      have hcalled : (s.pc t).status c = .called x.op := by
        rw [ht]
        exact status_of_updates hh.updates
      have hl := hh.stands.lookup (hr.inv.base hrole) hr.holds
      rcases status_withElist curr hh.updates hl with hst | ⟨hst, happly⟩
      · exact ⟨a, by simpa [observe] using ha, hr.hidden hi hr.holds (hst.trans hcalled.symm)⟩
      · obtain ⟨a', ha', hr'⟩ := hr.commit ha hi hcalled (by rw [happly]; exact hr.holds) hst
        exact ⟨a', by simpa [observe] using ha', hr'⟩
  | @writeElist t x curr e ret p i ht hb =>
    have hok := hr.inv.ok t
    rw [ht] at hok
    obtain ⟨hh, hn, hp⟩ := hok
    rw [hn] at hb
    cases hb
    have hbase := hr.inv.base (x := x) (t := t) (by rw [ht]; rfl)
    have hcalled : (s.pc t).status c = .called x.op := by
      rw [ht]
      exact status_of_updates hh.updates
    obtain ⟨hret, hwrite⟩ := hh.stands.holds_write hbase hr.holds hp
    have hnone := (congrArg Base.child hbase).trans child_elist
    have hafter : Holds c.slot ((s.memory.setElist x.parent_ptr (c.bucket x) e).trie c)
        (x.op.apply a.state) := by
      rw [trie_setElist hh.stands.onPath.linked hnone]
      exact hwrite
    have hst : (Pc.unlock x ret : Pc A K V).status c = .done (a.state x.op.key) := by
      rw [← hret, Pc.status, hh.updates]
      rfl
    obtain ⟨a', ha', hr'⟩ := hr.commit ha hi hcalled hafter hst
    exact ⟨a', by simpa [observe] using ha', hr'⟩
  | @changePointer t x new_p ht =>
    have hrole : (s.pc t).role c = .made x.parent_ptr (c.bucket x) new_p := by rw [ht]; rfl
    obtain ⟨k, d, hleaf, -, hfresh, hre, htrie⟩ := hr.inv.locks.publish_trie hrole
      (decide (x.depth < c.cache_depth))
    refine ⟨a, by simpa [observe] using ha, hr.hidden hi ?_ (by rw [ht]; rfl)⟩
    rw [htrie]
    exact hr.holds.expand hleaf hfresh hre
  | permUnlock ht =>
    exact ⟨a, by simpa [observe] using ha, hr.hidden hi hr.holds (by rw [ht]; rfl)⟩
  | invalidate ht =>
    exact ⟨a, by simpa [observe] using ha, hr.hidden hi hr.holds (by rw [ht]; rfl)⟩
  | unlock ht =>
    exact ⟨a, by simpa [observe] using ha, hr.hidden hi hr.holds (by rw [ht]; rfl)⟩
  | @allocate t new_p x curr p i ht hb hn =>
    refine ⟨a, by simpa [observe] using ha, hr.hidden hi ?_ (by rw [ht]; rfl)⟩
    rw [trie_rehash hr.inv.locks.memory hn]
    exact hr.holds
  | @misread t ret x curr q marked ht hb hf =>
    refine ⟨a, by simpa [observe] using ha, hr.hidden hi hr.holds ?_⟩
    rw [ht]
    exact (if_pos hf).trans (if_pos hf).symm
  | @land n p i w hn =>
    refine ⟨a, by simpa [observe] using ha, hi, ?_, hr.status⟩
    rw [trie_land]
    exact hr.holds
  | @finish t op ret ht =>
    by_cases hf : c.free op
    · refine ⟨a, by simpa [observe, ht, hf] using ha, hr.hidden hi hr.holds ?_⟩
      rw [ht]
      exact (if_pos hf).symm
    · have hdone : a.status t = .done ret := by
        rw [hr.status t, ht]
        exact if_neg hf
      refine ⟨_, by simpa [observe, ht, hf] using Atomic.Run.ret ha hdone, ?_⟩
      exact hr.put hi hr.holds rfl

theorem simulates (c : Config A K) : Simulates (machine c : Machine (State A K V T) (Act A K V T))
    (mapObject K V) (observe c) (Refines c) where
  init s hs := by
    rw [hs]
    refine ⟨⟨.initial, fun t => trivial⟩, ⟨initial_inv.tree.placed, fun k v => ?_⟩, fun t => rfl⟩
    refine iff_of_false (by simp [mapObject]) ?_
    rintro ⟨p, i, hm⟩
    rw [initial_items] at hm
    cases hm
  step s act s' a h hr ha hs := hr.step ha (step_cases hs)

/-! ### A table at rest -/

/-- A pair in an EList that a bucket of the tree points to. -/
structure Stored (c : Config A K) (m : Memory A K V) (p : A) (i : ℕ) (k : K) (v : V) : Prop where
  linked : m.Linked c p
  base : (m.plists p i).base = .elist p i
  mem : (k, v) ∈ m.elists p i

/-- Every key is stored at most once, in the EList that its path leads to. -/
structure WellPlaced (c : Config A K) (m : Memory A K V) : Prop where
  home : ∀ {p i k v}, Stored c m p i k v → ∃ d, (m.trie c).path c.slot k d = some p ∧ c.slot d k = i
  place : ∀ {p i q j k v w}, Stored c m p i k v → Stored c m q j k w → p = q ∧ i = j ∧ v = w
  nodup : ∀ {p i k v}, Stored c m p i k v → ((m.elists p i).map Prod.fst).Nodup

lemma Stored.items {p : A} {i : ℕ} {k : K} {v : V} (h : Stored c m p i k v) :
    (m.trie c).items p i = m.elists p i :=
  items_of_linked h.linked (by rw [h.base, child_elist])

lemma wellPlaced (h : (m.trie c).Placed c.slot) : WellPlaced c m where
  home hs := h.home (by rw [hs.items]; exact hs.mem)
  place {p i q j k v w} hs hs' := by
    have hm : (k, v) ∈ (m.trie c).items p i := by rw [hs.items]; exact hs.mem
    have hm' : (k, w) ∈ (m.trie c).items q j := by rw [hs'.items]; exact hs'.mem
    obtain ⟨d, hl, rfl⟩ := h.leaf hm
    obtain ⟨d', hl', rfl⟩ := h.leaf hm'
    obtain ⟨rfl, rfl⟩ := hl.unique hl'
    exact ⟨rfl, rfl, Trie.eq_of_mem (h.nodup p _) hm hm'⟩
  nodup {p i k v} hs := by
    rw [← hs.items]
    exact h.nodup p i

lemma countBuckets_eq {S : Set K} (hS : S.Finite) {g : K → ℕ} {count : ℕ → Option ℕ} {n : ℕ}
    (hn : ∀ i < n, count i = some {k ∈ S | g k = i}.ncard) :
    countBuckets count n = some {k ∈ S | g k < n}.ncard := by
  induction n with
  | zero => simp [countBuckets]
  | succ n ih =>
    have hsplit : {k ∈ S | g k < n + 1} = {k ∈ S | g k < n} ∪ {k ∈ S | g k = n} := by
      ext k
      simp only [Set.mem_union, Set.mem_ofPred_eq]
      have hlt := Nat.lt_succ_iff_lt_or_eq (m := g k) (n := n)
      tauto
    have hdisj : Disjoint {k ∈ S | g k < n} {k ∈ S | g k = n} := by
      rw [Set.disjoint_left]
      rintro k ⟨-, hlt⟩ ⟨-, heq⟩
      exact hlt.ne heq
    rw [countBuckets, ih fun i hi => hn i (by omega), hn n (by omega), hsplit,
      Set.ncard_union_eq hdisj (hS.subset (Set.sep_subset _ _)) (hS.subset (Set.sep_subset _ _))]
    rfl

/-- The keys whose path leads through the PList at `p` on this level. -/
def Memory.through (c : Config A K) (m : Memory A K V) (f : K → Option V) (d : ℕ) (p : A) : Set K :=
  {k ∈ support f | (m.trie c).path c.slot k d = some p}

lemma slot_lt (c : Config A K) (d : ℕ) (k : K) : c.slot d k < 2 ^ d * c.plist_size := by
  have hpos := Nat.one_le_two_pow (n := d)
  have hsize : 4 ≤ c.plist_size * 2 ^ d := le_trans c.plist_min (Nat.le_mul_of_pos_right _ hpos)
  have hlt : c.slot d k < c.plist_size * 2 ^ d - 1 := Nat.mod_lt _ (by omega)
  rw [mul_comm]
  omega

open Classical in
lemma ncard_keys {e : EList K V} (hn : (e.map Prod.fst).Nodup) :
    {k | ∃ v, (k, v) ∈ e}.ncard = e.length := by
  have hset : {k | ∃ v, (k, v) ∈ e} = (e.map Prod.fst).toFinset := by
    ext k
    simp
  rw [hset, Set.ncard_coe_finset, List.toFinset_card_of_nodup hn, List.length_map]

/-- The pairs of an EList bucket are those of the keys that it is the end of. -/
lemma through_elist (hf : Holds c.slot (m.trie c) f) {d i : ℕ} {p : A} (hp : m.Linked c p)
    (hlev : ∀ k n, (m.trie c).path c.slot k n = some p → n = d)
    (hb : (m.plists p i).base.child = none) :
    {k ∈ m.through c f d p | c.slot d k = i} = {k | ∃ v, (k, v) ∈ m.elists p i} := by
  have hitems := items_of_linked (i := i) hp hb
  ext k
  constructor
  · rintro ⟨⟨hk, hpath⟩, rfl⟩
    obtain ⟨v, hv⟩ := Option.ne_none_iff_exists'.mp hk
    refine ⟨v, ?_⟩
    rw [← hitems, ← hf.placed.stores_iff ⟨hpath, hb⟩]
    exact (hf.map k v).mp hv
  · rintro ⟨v, hv⟩
    rw [← hitems] at hv
    obtain ⟨n, hpath, hs⟩ := hf.placed.home hv
    obtain rfl := hlev k n hpath
    have hk := (hf.map k v).mpr ⟨p, i, hv⟩
    exact ⟨⟨by rw [support, Set.mem_ofPred_eq, hk]; simp, hpath⟩, hs⟩

/-- The keys that a bucket leads on are those of the PList behind it. -/
lemma through_plist (h : m.Inv c) {d i : ℕ} {p q : A} (hb : (m.plists p i).base.child = some q) :
    {k ∈ m.through c f d p | c.slot d k = i} = m.through c f (d + 1) q := by
  ext k
  constructor
  · rintro ⟨⟨hk, hpath⟩, rfl⟩
    exact ⟨hk, Trie.path_succ.mpr ⟨p, hpath, hb⟩⟩
  · rintro ⟨hk, hpath⟩
    obtain ⟨r, hr, hl⟩ := Trie.path_succ.mp hpath
    obtain ⟨rfl, rfl⟩ := h.tree.source hl hb
    exact ⟨⟨hk, hr⟩, rfl⟩

lemma count_plist_eq (h : m.Inv c) (hf : Holds c.slot (m.trie c) f) (hfin : (support f).Finite)
    (hrest : ∀ p i, (m.plists p i).lock ≠ .e_locked) (fuel : ℕ) :
    ∀ d p, m.Linked c p → (∀ k n, (m.trie c).path c.slot k n = some p → n = d) →
      m.allocated.idxOf p < fuel → count_plist c m fuel p (2 ^ d) = some (m.through c f d p).ncard := by
  induction fuel with
  | zero => exact fun d p _ _ hlt => absurd hlt (Nat.not_lt_zero _)
  | succ fuel ih =>
    intro d p hp hlev hlt
    have hS : (m.through c f d p).Finite := hfin.subset (Set.sep_subset _ _)
    have hall : {k ∈ m.through c f d p | c.slot d k < 2 ^ d * c.plist_size} = m.through c f d p :=
      Set.sep_eq_self_iff_mem_true.mpr fun k _ => slot_lt c d k
    rw [← hall, count_plist]
    refine countBuckets_eq hS fun i _ => ?_
    have hsound := h.sound p i
    have hlock := hrest p i
    cases hl : (m.plists p i).lock with
    | e_locked => exact absurd hl hlock
    | e_unlocked =>
      have hb := hsound.base_of_e_unlocked hl
      have hchild : (m.plists p i).base.child = none := by rw [hb, child_elist]
      have hn := hf.placed.nodup p i
      rw [items_of_linked hp hchild] at hn
      rw [hb, through_elist hf hp hlev hchild, ncard_keys hn]
    | p_unlocked =>
      obtain ⟨q, marked, hb⟩ := hsound.base_of_p_unlocked hl
      have hchild : (m.plists p i).base.child = some q := by rw [hb, child_plist]
      have hyoung := (h.tree.younger hchild).lt
      rw [hb, through_plist h hchild, ← pow_succ]
      refine ih (d + 1) q (.inr ⟨p, i, hchild⟩) (fun k n hk => ?_) (by omega)
      obtain ⟨k', d', hp', rfl⟩ := h.onPath_of_child hchild
      obtain rfl := hlev k' d' hp'
      exact h.tree.placed.level hk (Trie.path_succ.mpr ⟨p, hp', hchild⟩)

lemma count_eq (h : m.Inv c) (hf : Holds c.slot (m.trie c) f) (hfin : (support f).Finite)
    (hrest : ∀ p i, (m.plists p i).lock ≠ .e_locked) {fuel : ℕ} (hfuel : m.allocated.length ≤ fuel) :
    count c m fuel = some (support f).ncard := by
  have hall : m.through c f 0 c.root = support f :=
    Set.sep_eq_self_iff_mem_true.mpr fun k _ => rfl
  have hlev : ∀ k n, (m.trie c).path c.slot k n = some c.root → n = 0 :=
    fun k n hk => h.tree.placed.level hk (Trie.path_zero k)
  have hlt := List.idxOf_lt_length_of_mem h.root
  rw [count, ← hall]
  exact count_plist_eq h hf hfin hrest fuel 0 c.root (.inl rfl) hlev (by omega)

/-! ### Every run -/

/-- No operation in progress and no write on its way. -/
def State.AtRest (s : State A K V T) : Prop := (∀ t, s.pc t = .idle) ∧ s.memory.in_flight = []

lemma State.Inv.unlocked (h : s.Inv c) (hs : s.AtRest) (p : A) (i : ℕ) :
    (s.memory.plists p i).lock ≠ .e_locked := by
  intro hl
  rcases h.locks.owned hl with ⟨t, ht⟩ | ⟨w, hw⟩
  · simp only [hs.1 t] at ht
    cases ht
  · rw [hs.2] at hw
    cases hw

theorem updates_linearizable (c : Config A K)
    (r : (machine c : Machine (State A K V T) (Act A K V T)).Run) {i : ℕ} (hi : i ≤ r.len) :
    Linearizable (mapObject K V) (r.history (observe c) i) ∧
      ((r.state i).AtRest → WellPlaced c (r.state i).memory ∧
        ∃ n, (∀ fuel, (r.state i).memory.allocated.length ≤ fuel →
            count c (r.state i).memory fuel = some n) ∧
          n + ((r.history (observe c) i).tally MapOp.Deletes).ncard =
            ((r.history (observe c) i).tally MapOp.Adds).ncard) := by
  refine ⟨(simulates c).linearizable r hi, fun hrest => ?_⟩
  obtain ⟨a, ha, hr⟩ := (simulates c).run r i hi
  have hidle : ∀ t, a.status t = .idle := by
    intro t
    rw [hr.status t, hrest.1 t]
    rfl
  obtain ⟨hfin, hcard⟩ := ha.ncard_support hidle
  refine ⟨wellPlaced hr.holds.placed, _, fun fuel hfuel => ?_, hcard⟩
  exact count_eq hr.inv.locks.memory hr.holds hfin (hr.inv.unlocked hrest) hfuel

/-! ### Two keys in one bucket -/

/-- One pair to a list, four buckets at the root, and the identity for `std::hash`. -/
def pair (lock_free : Bool) : Config ℕ (BitVec 64) where
  elist_size := 1
  plist_size := 4
  elist_pos := Nat.le_refl 1
  plist_min := Nat.le_refl 4
  plist_dvd := Nat.dvd_refl 4
  hash := id
  cache_depth := 0
  lock_free := lock_free
  root := 0

abbrev PairState := State ℕ (BitVec 64) ℕ Bool

abbrev PairAct := Act ℕ (BitVec 64) ℕ Bool

/-- An insertion of 1, an insertion of 3 that rehashes 1, and a lookup of 1 with the first copy. -/
def pairActs : List PairAct :=
  [.call false (.insert 1 10), .read false 0, .next false, .next false, .next false, .next false,
    .deliver 0, .finish false,
    .call true (.insert 3 30), .read true 0, .next true, .next true, .allocate true 1, .next true,
    .next true, .next true, .deliver 0, .read true 0, .read true 0, .next true, .next true,
    .next true, .next true, .deliver 0, .finish true,
    .call false (.contains 1), .read false 4, .next false, .read false 0, .read false 0, .next false,
    .next false, .next false, .deliver 0, .finish false]

def pairStart (b : Bool) : PairState := ⟨.initial (pair b), fun _ => .idle⟩

def Pc.isIdle {A K V : Type} : Pc A K V → Bool
  | .idle => true
  | _ => false

lemma Pc.idle_of_isIdle (h : pc.isIdle) : pc = .idle := by
  cases pc with
  | idle => rfl
  | _ => cases h

def pairRun : (machine (pair false) : Machine PairState PairAct).Run :=
  .ofActs _ (pairStart false) pairActs rfl (by decide +kernel)

theorem updates_linearizable_pair :
    Linearizable (mapObject (BitVec 64) ℕ) (pairRun.history (observe (pair false)) pairRun.len) ∧
      WellPlaced (pair false) (pairRun.state pairRun.len).memory ∧
      count (pair false) (pairRun.state pairRun.len).memory 2 = some 2 := by
  have hrest : (pairRun.state pairRun.len).AtRest := by
    refine ⟨fun t => Pc.idle_of_isIdle ?_, by decide +kernel⟩
    cases t with
    | false => decide +kernel
    | true => decide +kernel
  obtain ⟨hlin, hquiet⟩ := updates_linearizable (pair false) pairRun le_rfl
  exact ⟨hlin, (hquiet hrest).1, by decide +kernel⟩

end ObjectCache.Iht.Rdma
