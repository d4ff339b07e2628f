import ObjectCache.Sherman.IndexFill
import ObjectCache.Sherman.Root
import ObjectCache.LockFree.Search
import ObjectCache.Btree.NodeSpecs

/-! `search_from_cache` after pages have been added, next to `search_node` and `read_level` on the page. -/

set_option linter.unusedSectionVars false

namespace ObjectCache.Sherman

open Lib Btree

/-- `search_node` followed by `read_level`. -/
def selected {B : Type} (degree : ℕ) (page : BNode B) (key : Key) : Option B :=
  match searchNode degree page.keys key with
  | some bucket => page.ptrs bucket
  | none => page.ptrs (SIZE degree)

variable {d n rounds low high : ℕ} {keys : Slots Key} {key : Key}

lemma searchLoop_eq (hle : low ≤ high) (hhigh : high < SIZE d) (hrounds : high - low < rounds) :
    Tree.searchLoop d keys key rounds low high = .ok (searchLoop keys key rounds low high : ℤ) := by
  induction rounds generalizing low high with
  | zero => omega
  | succ rounds ih =>
    rw [Tree.searchLoop, searchLoop]
    by_cases heq : low = high
    · rw [if_pos heq, if_pos heq]
    · have hmid : low ≤ (low + high) / 2 ∧ (low + high) / 2 < high := by omega
      rw [if_neg heq, if_neg heq]
      show (Tree.keyAt d keys ((low + high) / 2 : ℕ) >>= _) = _
      rw [Tree.keyAt, Tree.load_ok (by omega)]
      show (if key = keys ((low + high) / 2) then _ else _) = Except.ok ((if _ then _ else _ : ℕ) : ℤ)
      generalize (low + high) / 2 = mid at hmid ⊢
      by_cases hequal : key = keys mid
      · rw [if_pos hequal, if_pos hequal]
        rfl
      · rw [if_neg hequal, if_neg hequal]
        by_cases hless : key < keys mid
        · rw [if_pos hless, if_pos hless]
          exact ih (by omega) (by omega) (by omega)
        · rw [if_neg hless, if_neg hless]
          exact ih (by omega) hhigh (by omega)

/-- The search of the tree on the same slots. -/
lemma searchNode_eq : Tree.searchNode d keys key =
    .ok (match searchNode d keys key with
      | some bucket => (bucket : ℤ)
      | none => -1) := by
  have hsize := Tree.pos_size (d := d)
  rw [Tree.searchNode, Tree.keyAt, Tree.load_ok (by omega), searchNode]
  show (if keys (SIZE d - 1) < key then _ else _) = _
  split_ifs with hlast
  · rfl
  · exact searchLoop_eq (Nat.zero_le _) (by omega) (by omega)

lemma addrOf_eq_selected {B : Type} {page : BNode B} (h : Tree.Ordered d page.keys n) (hk : key < SENTINEL) :
    IndexCache.addrOf d page key = selected d page key := by
  obtain ⟨b, hb, i, hroute, hfound⟩ := returns_iff.mp (Tree.searchNode_returns h hk)
  rw [searchNode_eq] at hb
  injection hb with hb
  rw [IndexCache.addrOf, selected]
  rcases hfound with ⟨hi, rfl⟩ | ⟨rfl, rfl⟩
  · rw [Tree.find_first hi hroute.before (h.behind hk hroute hi)]
    cases hs : searchNode d page.keys key with
    | none =>
      rw [hs] at hb
      simp at hb
    | some bucket =>
      rw [hs] at hb
      rw [Int.ofNat.inj hb]
  · rw [Tree.find_none hroute.before]
    cases hs : searchNode d page.keys key with
    | none => rfl
    | some bucket =>
      rw [hs] at hb
      simp at hb

namespace IndexCache

open LockFree

variable {A B T : Type} [DecidableEq A] [DecidableEq T] {c : Config A} {s s' : State A B T} {t : T}
  {p : BNode B} {ps : List (BNode B)} {k : Key} {addr : Option B} {linked : Set A}

/-- `search_from_cache(k)` of a thread, with no step of another, returns true and stores the pointer. -/
def Finds (c : Config A) (s : State A B T) (t : T) (k : Key) (addr : Option B) : Prop :=
  ∃ n s', (machine c).exec s (.search t k :: List.replicate n (.skiplist (.next t)) ++ [.next t]) = some s' ∧
    s'.pc t = .done (.found (some addr))

lemma exec_inner (n : ℕ) : (machine c).exec s (List.replicate n (.skiplist (.next t))) =
    ((Get.machine c.list).exec s.skiplist (List.replicate n (.next t))).map
      fun skiplist => { s with skiplist } := by
  induction n generalizing s with
  | zero => rfl
  | succ n ih =>
    simp only [List.replicate_succ, Machine.exec]
    have hstep : (machine c).step s (.skiplist (.next t)) =
        (Get.step c.list s.skiplist (.next t)).map fun skiplist => { s with skiplist } := rfl
    rw [hstep]
    change _ = (Option.bind (Get.step c.list s.skiplist (.next t)) _).map _
    cases Get.step c.list s.skiplist (.next t) with
    | none => rfl
    | some skiplist => exact ih

/-- The return from the `get` of a search. -/
lemma next_search (hpc : s.pc t = .search k) (h : next c s t = some s') : ∃ result accesses,
    s.skiplist.get t = .done result accesses ∧
      s'.pc t = .done (.found (searched c.degree k result accesses)) := by
  simp only [next, hpc] at h
  cases hget : s.skiplist.get t with
  | done result accesses =>
    simp only [hget] at h
    obtain ⟨skiplist, -, rfl⟩ := enter_cases h
    exact ⟨result, accesses, rfl, Function.update_self ..⟩
  | _ => simp [hget] at h

lemma exists_next_search {result : Option (BNode B)} {accesses : Option ℤ} (hpc : s.pc t = .search k)
    (hget : s.skiplist.get t = .done result accesses) : ∃ s', next c s t = some s' := by
  have hret : Get.step c.list s.skiplist (.ret t) =
      some { s.skiplist with get := Function.update s.skiplist.get t .idle } := by
    simp only [Get.step, hget]
  simp only [next, hpc, hget, enter, hret, Option.map_some]
  exact ⟨_, rfl⟩

lemma finds_iff {skiplist : Get.State A (BNode B) T} (hidle : s.pc t = .idle)
    (hstart : Get.step c.list s.skiplist (.get t k true) = some skiplist) :
    Finds c s t k addr ↔ ∃ n skiplist' result accesses,
      (Get.machine c.list).exec skiplist (List.replicate n (.next t)) = some skiplist' ∧
        skiplist'.get t = .done result accesses ∧ searched c.degree k result accesses = some addr := by
  have hsearch : (machine c).step s (.search t k) = some (s.put skiplist t (.search k)) := by
    change step c s (.search t k) = _
    simp only [step, hidle, enter, hstart, Option.map_some]
  have hexec : ∀ n, (machine c).exec s (.search t k :: List.replicate n (.skiplist (.next t)) ++ [.next t]) =
      ((Get.machine c.list).exec skiplist (List.replicate n (.next t))).bind fun skiplist' =>
        next c (s.put skiplist' t (.search k)) t := by
    intro n
    rw [List.cons_append]
    simp only [Machine.exec]
    rw [hsearch, Option.bind_some, Machine.exec_append, exec_inner]
    change ((Option.map _ ((Get.machine c.list).exec skiplist _)).bind _) = _
    cases (Get.machine c.list).exec skiplist (List.replicate n (.next t)) with
    | none => rfl
    | some skiplist' => exact Option.bind_fun_some (next c (s.put skiplist' t (.search k)) t)
  constructor
  · rintro ⟨n, s', hs, hfound⟩
    rw [hexec, Option.bind_eq_some_iff] at hs
    obtain ⟨skiplist', hrun, hnext⟩ := hs
    obtain ⟨result, accesses, hget, hpc⟩ := next_search (Function.update_self ..) hnext
    rw [hpc] at hfound
    injection hfound with hfound
    injection hfound with hfound
    exact ⟨n, skiplist', result, accesses, hrun, hget, hfound⟩
  · rintro ⟨n, skiplist', result, accesses, hrun, hget, hfound⟩
    obtain ⟨last, hlast⟩ := exists_next_search (c := c) (s := s.put skiplist' t (.search k))
      (Function.update_self ..) hget
    obtain ⟨result', accesses', hget', hpc⟩ := next_search (Function.update_self ..) hlast
    obtain ⟨rfl, rfl⟩ : result = result' ∧ accesses = accesses' := by
      have hsame := hget.symm.trans hget'
      cases hsame
      exact ⟨rfl, rfl⟩
    refine ⟨n, last, ?_, ?_⟩
    · rw [hexec, hrun]
      exact hlast
    · rw [hpc, hfound]

/-! ### A cache with pages, at rest -/

/-- The nodes of the list are those of the pages, none of them is marked, and no call is in progress. -/
structure Stocked (c : Config A) (s : State A B T) (ps : List (BNode B)) (linked : Set A) : Prop extends
    Get.Rising c.list linked s.memory where
  live : ∀ n ∈ linked, Live c.list s.memory n
  unmarked : ∀ n level, (s.memory.next n level).marked = false
  adding : Adding s
  idle : ∀ t, s.pc t = .idle ∧ (s.skiplist.list.thread t).pc = .idle
  legal : ∀ p ∈ ps, (insertOf p).Legal
  page : ∀ n ∈ linked, n ≠ c.list.head → n ≠ c.list.tail → ∃ p ∈ ps, opOf (s.memory.node n) = insertOf p
  kept : ∀ p ∈ ps, ∃ n ∈ linked, opOf (s.memory.node n) = insertOf p

lemma Filled.stocked {r : Trace c.list (BNode B) T} (h : Filled s ps r) (hadding : Adding s)
    (hidle : ∀ t, s.pc t = .idle) : Stocked c s ps (r.linked r.len) := by
  have hunmarked : ∀ n level, (s.memory.next n level).marked = false := by
    intro n level
    rw [State.memory, ← h.follows]
    exact unmarked_of_ops h.ops le_rfl n level
  refine ⟨Get.rising_of_run h.follows, fun n hn => ?_, hunmarked, hadding, fun t => ⟨hidle t, ?_⟩, h.legal, h.page,
    fun p hp => ?_⟩
  · have hshape := (inv_of_run r r.len le_rfl).shape
    rw [Trace.memory, h.follows] at hshape
    exact hshape.live hn (hunmarked n 0)
  · have hagrees := h.agrees t
    rw [hidle t] at hagrees
    exact hagrees
  · rcases h.kept p hp with hn | ⟨t, ht, -⟩
    · exact hn
    · rw [hidle t] at ht
      cases ht

namespace Stocked

variable (h : Stocked c s ps linked)

include h

/-- The start of a search. -/
lemma start (t : T) (hp : p ∈ ps) (hlow : p.key_low < k) (hhigh : k ≤ p.key_high) : ∃ skiplist,
    Get.step c.list s.skiplist (.get t k true) = some skiplist ∧ skiplist.list = s.skiplist.list ∧
      skiplist.get t = .load k true (MAX_LEVEL - 1) c.list.head ∧
      Get.Looking c.list linked skiplist t k := by
  have hlegal := h.legal p hp
  have hk : LockFree.INT_MIN ≤ k := le_trans (show LockFree.INT_MIN ≤ p.key_low from hlegal.low) hlow.le
  have hk' : k ≤ LockFree.INT_MAX := le_trans hhigh (show p.key_high ≤ LockFree.INT_MAX from hlegal.high)
  refine ⟨{ s.skiplist with get := Function.update s.skiplist.get t (.load k true (MAX_LEVEL - 1) c.list.head) },
    ?_, rfl, Function.update_self .., ?_, fun _ => h.adding.accesses⟩
  · simp only [Get.step, h.adding.gets t, (h.idle t).2, if_pos (And.intro hk hk')]
  · simp only [Function.update_self]
    refine ⟨rfl, rfl, h.head, ?_, by decide, ?_⟩
    · change MAX_LEVEL - 1 ≤ (s.memory.node c.list.head).topLevel
      rw [h.head_node]
      exact Nat.sub_le _ _
    · change (s.memory.node c.list.head).key_high ≤ k
      rw [h.head_node]
      exact hk

lemma finds (t : T) (hp : p ∈ ps) (hdeleted : p.is_deleted = false) (hlow : p.key_low < k)
    (hhigh : k < p.key_high) : Finds c s t k (addrOf c.degree p k) := by
  obtain ⟨skiplist, hstart, hlist, hget, hlook⟩ := h.start t hp hlow hhigh.le
  obtain ⟨n, hn, hop⟩ := h.kept p hp
  obtain ⟨hnlow, hnhigh, hvalue⟩ := eq_of_opOf hop
  have hkey : k < LockFree.INT_MAX := lt_of_lt_of_le hhigh (h.legal p hp).high
  have heq : (s.memory.node n).is_equal_key k = true := by
    rw [Get.is_equal_key_iff, hnlow, hnhigh]
    exact ⟨hlow.le, hhigh⟩
  obtain ⟨m, last, hexec, hdone⟩ := hlook.finds (hlist.symm ▸ h.toRising) (hlist.symm ▸ h.live)
    (hlist.symm ▸ h.unmarked) hkey hget hn (hlist.symm ▸ heq)
  rw [hlist] at hdone
  refine (finds_iff (h.idle t).1 hstart).mpr ⟨m, last, _, _, hexec, hdone, ?_⟩
  have hrange : p.keyInRange k = true := by
    simp [BNode.keyInRange, hlow, hhigh.le, hdeleted]
  rw [show (s.skiplist.list.memory.node n).value = some p from hvalue]
  simp [searched, hrange]

lemma of_finds (hapart : Apart ps) (hp : p ∈ ps) (hlow : p.key_low < k) (hhigh : k ≤ p.key_high)
    (hfinds : Finds c s t k addr) : k < p.key_high ∧ p.is_deleted = false := by
  obtain ⟨skiplist, hstart, hlist, hget, hlook⟩ := h.start t hp hlow hhigh
  obtain ⟨m, last, result, accesses, hexec, hdone, hsearched⟩ := (finds_iff (h.idle t).1 hstart).mp hfinds
  have hlinks : Links c.list linked skiplist.list.memory := hlist.symm ▸ h.toLinks
  obtain ⟨hlist', hend⟩ := hlook.exec hlinks hexec
  cases result with
  | none => cases hsearched
  | some q =>
    obtain ⟨n, hn, heq, hvalue⟩ := hend.found (hlist'.symm ▸ hlinks) hdone rfl
    rw [hlist', hlist] at heq hvalue
    have hends : n ≠ c.list.head ∧ n ≠ c.list.tail := by
      refine ⟨?_, ?_⟩
      · rintro rfl
        rw [h.head_node] at hvalue
        cases hvalue
      · rintro rfl
        rw [h.tail_node] at hvalue
        cases hvalue
    obtain ⟨q', hq, hop⟩ := h.page n hn hends.1 hends.2
    obtain ⟨-, hnhigh, hvalue'⟩ := eq_of_opOf hop
    obtain rfl : q = q' := Option.some.inj (hvalue.symm.trans hvalue')
    cases accesses with
    | none => cases hsearched
    | some count =>
      simp only [searched] at hsearched
      split_ifs at hsearched with hcount hrange
      simp only [BNode.keyInRange, Bool.and_eq_true, decide_eq_true_eq, Bool.not_eq_true'] at hrange
      obtain ⟨⟨hqlow, hqhigh⟩, hdeleted⟩ := hrange
      obtain rfl : p = q := hapart.eq hp hq ⟨hlow, hhigh⟩ ⟨hqlow, hqhigh⟩
      rw [Get.is_equal_key_iff, hnhigh] at heq
      exact ⟨heq.2, hdeleted⟩

end Stocked

lemma finds_selected_iff {linked : Set A} {n : ℕ} (h : Stocked c s ps linked) (hapart : Apart ps) (hp : p ∈ ps)
    (hordered : Tree.Ordered c.degree p.keys n) (hlow : p.key_low < k) (hhigh : k ≤ p.key_high) :
    Finds c s t k (selected c.degree p k) ↔ k < p.key_high ∧ p.is_deleted = false := by
  refine ⟨h.of_finds hapart hp hlow hhigh, ?_⟩
  rintro ⟨hlt, hdeleted⟩
  have hkey : k < SENTINEL := lt_of_lt_of_le hlt (h.legal p hp).high
  rw [← addrOf_eq_selected hordered hkey]
  exact h.finds t hp hdeleted hlow hlt

/-- The pages whose addition starts in the first steps of a run. -/
def added (R : (machine c : Machine (State A B T) (Act A B T)).Run) : ℕ → List (BNode B)
  | 0 => []
  | i + 1 => (R.act i).pages ++ added R i

lemma adds_of_run (R : (machine c : Machine (State A B T) (Act A B T)).Run) {i : ℕ} (hi : i ≤ R.len)
    (hfills : ∀ j < i, (R.act j).fills = true) : Adds c (R.state i) (added R i) := by
  induction i with
  | zero =>
    rw [show R.state 0 = initial c from R.start]
    exact .initial
  | succ i ih =>
    apply Adds.step
    · exact ih (by omega) fun j hj => hfills j (by omega)
    · exact hfills i (Nat.lt_succ_self i)
    · exact R.next i (by omega)

/-- A page with the range from 0 to 10 and a key between two pointers. -/
def fencedPage : BNode ℕ := (((pageOf 0 10).setKey 0 4).setPtr 0 40).setPtr 1 50

lemma init_onePage : (machine onePage : Machine (State ℕ ℕ Unit) (Act ℕ ℕ Unit)).init (initial onePage) := rfl

def fencedRun : (machine onePage : Machine (State ℕ ℕ Unit) (Act ℕ ℕ Unit)).Run :=
  .ofActs _ (initial onePage) (addPage () 34 fencedPage 2 ++ settle () ++ [.ret ()]) init_onePage (by decide +kernel)

lemma fenced_adds : Adds onePage (fencedRun.state fencedRun.len) [fencedPage] := by
  have hfills : ∀ j < fencedRun.len, (fencedRun.act j).fills = true := by
    decide +kernel
  exact adds_of_run fencedRun le_rfl hfills

lemma fenced_idle (t : Unit) : (fencedRun.state fencedRun.len).pc t = .idle := by
  have hidle : ∀ t, ((fencedRun.state fencedRun.len).pc t).isIdle = true := by
    decide +kernel
  exact idle_of_isIdle (hidle t)

lemma fenced_ordered : Tree.Ordered onePage.degree fencedPage.keys 1 := by
  refine ⟨by decide, fun i j hij hj => by omega, by decide, ?_⟩
  decide

/-- A root with one entry, with the same range. -/
def fencedRoot : List (ShermanRoot.RootEntry ℕ) := [⟨true, some 40, 0, 10⟩]

def vacantRoot : List (ShermanRoot.RootEntry ℕ) := [⟨false, none, 0, 0⟩]

lemma vacant_root : ShermanRoot.Vacant vacantRoot := by
  intro e he
  obtain rfl := List.mem_singleton.mp he
  rfl

/-! ### The fences -/

/-- Both caches serve the keys of a range up to its upper fence, and not the fence itself. -/
theorem serves_upto_fence [Fintype T] {C : Type} :
    (∀ (s : State A B T) (ps : List (BNode B)) (p : BNode B) (n : ℕ) (k : Key) (t : T), Adds c s ps →
      (ps.length : ℤ) ≤ c.all_page_cnt → Apart ps → (∀ u, s.pc u = .idle) → p ∈ ps →
      Tree.Ordered c.degree p.keys n → p.key_low < k → k ≤ p.key_high →
      (Finds c s t k (selected c.degree p k) ↔ k < p.key_high ∧ p.is_deleted = false)) ∧
    ∀ (ptrs : List (ShermanRoot.RootEntry C)) (puts : List (ShermanRoot.Put C)) (i : ℕ)
      (e : ShermanRoot.RootEntry C) (k : Key), ShermanRoot.Vacant ptrs →
      (puts.Pairwise fun p q => Disjoint (Set.Ioc p.key_low p.key_high) (Set.Ioc q.key_low q.key_high)) →
      (ShermanRoot.fill ptrs puts)[i]? = some e → e.present = true → e.key_low < k → k ≤ e.key_high →
      (ShermanRoot.Serves (ShermanRoot.fill ptrs puts) i e k ↔ k < e.key_high) := by
  refine ⟨fun s ps p n k t hadds hroom hapart hidle hp hordered hlow hhigh => ?_,
    fun ptrs puts i e k hvacant hputs hi hpresent hlow _ => ?_⟩
  · obtain ⟨hadding, -, r, hfilled⟩ := filled_of_adds t hadds hroom hapart
    exact finds_selected_iff (hfilled.stocked hadding hidle) hapart hp hordered hlow hhigh
  · have hnew : ∀ p ∈ puts, ∀ f ∈ ptrs, f.present = true →
        Disjoint f.keys (Set.Ioc p.key_low p.key_high) := by
      intro p _ f hf hfp
      rw [hvacant f hf] at hfp
      cases hfp
    exact (ShermanRoot.fill_apart hvacant.apart hputs hnew).serves_iff hi hpresent hlow

theorem serves_upto_fence_fenced :
    (Finds onePage (fencedRun.state fencedRun.len) () 5 (selected onePage.degree fencedPage 5) ↔
        5 < fencedPage.key_high ∧ fencedPage.is_deleted = false) ∧
      (ShermanRoot.Serves fencedRoot 0 ⟨true, some 40, 0, 10⟩ 5 ↔ (5 : Key) < 10) := by
  obtain ⟨hcache, hroot⟩ := serves_upto_fence (A := ℕ) (B := ℕ) (T := Unit) (c := onePage) (C := ℕ)
  refine ⟨?_, ?_⟩
  · exact hcache _ [fencedPage] fencedPage 1 5 () fenced_adds (by decide) (List.pairwise_singleton _ _)
      fenced_idle List.mem_cons_self fenced_ordered (by decide) (by decide)
  · exact hroot vacantRoot [⟨0, 10, some 40⟩] 0 ⟨true, some 40, 0, 10⟩ 5 vacant_root
      (List.pairwise_singleton _ _) rfl rfl (by decide) (by decide)

/-- Neither cache serves the upper fence 10 of the range. -/
theorem not_serves_fence :
    (¬ ∀ (s : State ℕ ℕ Unit) (ps : List (BNode ℕ)) (p : BNode ℕ) (n : ℕ) (k : Key) (t : Unit), Adds onePage s ps →
      (ps.length : ℤ) ≤ onePage.all_page_cnt → Apart ps → (∀ u, s.pc u = .idle) → p ∈ ps →
      Tree.Ordered onePage.degree p.keys n → p.is_deleted = false → p.key_low < k → k ≤ p.key_high →
      Finds onePage s t k (selected onePage.degree p k)) ∧
    ¬ ∀ (ptrs : List (ShermanRoot.RootEntry ℕ)) (puts : List (ShermanRoot.Put ℕ)) (i : ℕ)
      (e : ShermanRoot.RootEntry ℕ) (k : Key), ShermanRoot.Vacant ptrs →
      (puts.Pairwise fun p q => Disjoint (Set.Ioc p.key_low p.key_high) (Set.Ioc q.key_low q.key_high)) →
      (ShermanRoot.fill ptrs puts)[i]? = some e → e.present = true → e.key_low < k → k ≤ e.key_high →
      ShermanRoot.Serves (ShermanRoot.fill ptrs puts) i e k := by
  refine ⟨fun h => ?_, fun h => ?_⟩
  · have hfinds := h _ [fencedPage] fencedPage 1 10 () fenced_adds (by decide) (List.pairwise_singleton _ _)
      fenced_idle List.mem_cons_self fenced_ordered rfl (by decide) (by decide)
    obtain ⟨hadding, -, r, hfilled⟩ := filled_of_adds () fenced_adds (by decide) (List.pairwise_singleton _ _)
    obtain ⟨hlt, -⟩ := (hfilled.stocked hadding fenced_idle).of_finds (List.pairwise_singleton _ _)
      List.mem_cons_self (by decide) (by decide) hfinds
    exact absurd hlt (by decide)
  · have hserves := h vacantRoot [⟨0, 10, some 40⟩] 0 ⟨true, some 40, 0, 10⟩ 10 vacant_root
      (List.pairwise_singleton _ _) rfl rfl (by decide) (by decide)
    have hptr : (none : Option ℕ) = some 40 := hserves.1
    cases hptr

end IndexCache

end ObjectCache.Sherman
