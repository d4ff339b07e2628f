import ObjectCache.Iht.TunedCache

/-! What every client of `TunedRdmaIHT` knows as long as no client fetches a slot that was filled under
another path. -/

set_option linter.unusedSectionVars false

namespace ObjectCache.Iht.Tuned

open Lib Cache Rdma

variable {A K V N T : Type} [DecidableEq A] [DecidableEq K] [DecidableEq N] [DecidableEq T]
  {c : Config A K} {n : Nodes N T} {m m' : Memory A K V} {s s' : State A K V N T} {t u : T}
  {x : Context A K V} {curr : PList A} {pc : Pc A K V} {e : EList K V} {ret : Option V}

/-- No client is about to fetch a slot that was filled under another path. -/
def Unmixed (c : Config A K) (s : State A K V N T) : Prop :=
  ∀ t x cache, s.pc t = .fetch x → fetch_cache c (s.layers t) x.path = some cache →
    cache.path = x.path

/-- The loop stands where its bucket path leads. -/
structure Context.At (c : Config A K) (m : Memory A K V) (x : Context A K V) : Prop where
  stands : Stands c m x.op.key x.parent_ptr x.depth x.count
  path : x.path = bucketPath c x.op.key (x.depth - 1)

def Context.Snapshot (m : Memory A K V) (x : Context A K V) (curr : PList A) : Prop :=
  ∀ i, (curr i).Tells m x.parent_ptr i

def Context.Names (c : Config A K) (x : Context A K V) (curr : PList A) : Prop :=
  (curr (bucketOf c x)).base = .elist x.parent_ptr (bucketOf c x)

def Pc.Ok (c : Config A K) (m : Memory A K V) : Pc A K V → Prop
  | .idle | .done _ _ => True
  | .fetch x | .extendedRead x | .refetch x => x.At c m
  | .acquire x curr => x.At c m ∧ x.Snapshot m curr
  | .readElist x curr did_acquire =>
    x.At c m ∧ x.Snapshot m curr ∧ if did_acquire then x.Names c curr else c.free x.op
  | .writeElist x curr e ret => x.At c m ∧ x.Names c curr ∧
    Pending c (m.elists x.parent_ptr (bucketOf c x)) x.op e ret
  | .rehash x curr => x.At c m ∧ x.Names c curr
  | .changePointer x _ | .permUnlock x | .unlock x _ => x.At c m

def Pc.role (c : Config A K) : Pc A K V → Role A
  | .readElist x _ true => .locked x.parent_ptr (bucketOf c x)
  | .writeElist x _ _ _ | .rehash x _ | .unlock x _ => .locked x.parent_ptr (bucketOf c x)
  | .changePointer x new_p => .made x.parent_ptr (bucketOf c x) new_p
  | .permUnlock x => .published x.parent_ptr (bucketOf c x)
  | .idle | .fetch _ | .extendedRead _ | .refetch _ | .acquire _ _ | .readElist _ _ false
  | .done _ _ => .free

lemma Context.At.grows (h : x.At c m) (hg : Grows m m') : x.At c m' :=
  ⟨h.stands.grows hg, h.path⟩

lemma Context.Snapshot.grows (h : x.Snapshot m curr) (hg : Grows m m') : x.Snapshot m' curr :=
  fun i => (h i).grows hg

lemma Pc.Ok.keep (h : pc.Ok c m) (hk : Keeps c m m' (pc.role c)) : pc.Ok c m' := by
  have hg := hk.toGrows
  cases pc with
  | idle => trivial
  | done op ret => trivial
  | fetch x => exact Context.At.grows h hg
  | extendedRead x => exact Context.At.grows h hg
  | refetch x => exact Context.At.grows h hg
  | acquire x curr => exact ⟨h.1.grows hg, h.2.grows hg⟩
  | readElist x curr did_acquire => exact ⟨h.1.grows hg, h.2.1.grows hg, h.2.2⟩
  | writeElist x curr e ret =>
    obtain ⟨-, he⟩ := hk.held (p := x.parent_ptr) (i := bucketOf c x) rfl
    exact ⟨h.1.grows hg, h.2.1, by rw [he]; exact h.2.2⟩
  | rehash x curr => exact ⟨h.1.grows hg, h.2⟩
  | changePointer x new_p => exact Context.At.grows h hg
  | permUnlock x => exact Context.At.grows h hg
  | unlock x ret => exact Context.At.grows h hg

/-! ### The invariant -/

structure State.Inv (c : Config A K) (s : State A K V N T) : Prop where
  locks : Locks c s.memory fun t => (s.pc t).role c
  ok : ∀ t, (s.pc t).Ok c s.memory
  saved : ∀ {t y}, y ∈ s.layers t → y.2.Ok c s.memory

lemma put_pc_self : (s.put m t pc).pc t = pc := Function.update_self ..

lemma put_pc_other (hu : u ≠ t) : (s.put m t pc).pc u = s.pc u := Function.update_of_ne hu ..

lemma role_put : (fun u => ((s.put m t pc).pc u).role c) =
    Function.update (fun u => (s.pc u).role c) t (pc.role c) := by
  funext u
  by_cases hu : u = t
  · subst hu
    rw [put_pc_self, Function.update_self]
  · rw [put_pc_other hu, Function.update_of_ne hu]

lemma State.Inv.put (h : s.Inv c) (hl : Locks c m (Function.update (fun u => (s.pc u).role c) t
    (pc.role c))) (hg : Grows s.memory m)
    (hkeep : ∀ u, u ≠ t → Keeps c s.memory m ((s.pc u).role c)) (hok : pc.Ok c m) :
    (s.put m t pc).Inv c where
  locks := by
    rw [role_put]
    exact hl
  ok u := by
    by_cases hu : u = t
    · subst hu
      rw [put_pc_self]
      exact hok
    · rw [put_pc_other hu]
      exact (h.ok u).keep (hkeep u hu)
  saved hs := (h.saved hs).grows hg

/-- A step that neither touches memory nor locks anything. -/
lemma State.Inv.quiet (h : s.Inv c) (hok : pc.Ok c s.memory) (hr : pc.role c = (s.pc t).role c) :
    (s.put s.memory t pc).Inv c := by
  refine h.put ?_ .refl (fun u _ => .refl) hok
  rw [hr, Function.update_eq_self t fun u => (s.pc u).role c]
  exact h.locks

lemma State.Inv.owner (h : s.Inv c) (owner : A → N) :
    State.Inv c { s with owner := owner } :=
  ⟨h.locks, h.ok, h.saved⟩

lemma entered_ok (h : x.At c m) (hs : x.Snapshot m curr) (he : Entered c x curr pc) :
    pc.Ok c m ∧ pc.role c = .free := by
  cases he with
  | @down p marked hl hb =>
    obtain ⟨q, marked', hq, hm⟩ := (hs (bucketOf c x)).plist hl
    rw [hb] at hq
    cases hq
    refine ⟨⟨Stands.down h.stands hm, ?_⟩, rfl⟩
    have hd : x.depth + 1 - 1 = x.depth - 1 + 1 := by have := h.stands.pos; omega
    have hbucket : bucketOf c x = c.slot (x.depth - 1) x.op.key := h.stands.bucket
    simp only [hd, bucketPath_succ, ← h.path, hbucket]
  | read _ hf => exact ⟨⟨h, hs, hf⟩, rfl⟩
  | lock => exact ⟨⟨h, hs⟩, rfl⟩

/-- What the loop has from a slot that was filled under its own path. -/
lemma Context.At.snapshot_saved (h : x.At c m) {cache : Saved A} (hc : cache.Ok c m)
    (hp : cache.path = x.path) : x.Snapshot m cache.buckets := by
  obtain ⟨p, hf, -, htells, -⟩ := hc.follow_eq
  rw [hp, h.path, follow_bucketPath, h.stands.path] at hf
  cases hf
  exact htells

/-! ### The closures -/

lemma removeFrom_of_notMem {k : K} (hk : k ∉ e.map Prod.fst) (fuel : ℕ) :
    ∀ i result, removeFrom k fuel i e result = (e, result) := by
  induction fuel with
  | zero => exact fun i result => rfl
  | succ fuel ih =>
    intro i result
    rw [removeFrom]
    cases he : e[i]? with
    | none => rfl
    | some kv =>
      have hne : kv.1 ≠ k := by
        rintro rfl
        exact hk (List.mem_map_of_mem (List.mem_of_getElem? he))
      simp only [if_neg hne]
      exact ih _ _

lemma removeFrom_skip {k : K} (l : EList K V) (hk : k ∉ l.map Prod.fst) (fuel : ℕ) :
    ∀ (a r : EList K V) (result : Option V),
      removeFrom k (l.length + fuel) a.length (a ++ l ++ r) result =
        removeFrom k fuel (a.length + l.length) (a ++ l ++ r) result := by
  induction l with
  | nil => intro a r result; simp
  | cons kv l ih =>
    intro a r result
    rw [List.map_cons, List.mem_cons, not_or] at hk
    have hget : (a ++ kv :: l ++ r)[a.length]? = some kv := by simp
    have hfuel : (kv :: l).length + fuel = l.length + fuel + 1 := by simp; omega
    have hnext := ih hk.2 (a ++ [kv]) r result
    simp only [List.length_append, List.length_singleton, List.append_assoc,
      List.cons_append, List.nil_append] at hnext
    rw [hfuel, removeFrom, hget]
    simp only [if_neg (Ne.symm hk.1), List.append_assoc, List.cons_append, List.length_cons]
    rw [hnext]
    congr 1
    omega

/-- With distinct keys the loop removes one pair. -/
lemma removeFrom_eq {k : K} (hn : (e.map Prod.fst).Nodup) :
    removeFrom k e.length 0 e none = (e.remove k, e.lookup k) := by
  by_cases hk : k ∈ e.map Prod.fst
  · obtain ⟨l, v, r, rfl, hi⟩ := EList.exists_split hk
    rw [List.map_append, List.map_cons, List.nodup_middle] at hn
    have hnot := (List.nodup_cons.mp hn).1
    rw [← List.map_append] at hnot
    have hl : k ∉ l.map Prod.fst := fun h => hnot (by simp at h ⊢; exact .inl h)
    have hperm := EList.takeOut_perm l r (k, v)
    have hout : k ∉ (EList.takeOut (l ++ (k, v) :: r) l.length).map Prod.fst := by
      rwa [(hperm.map Prod.fst).mem_iff]
    have hskip := removeFrom_skip l hl (r.length + 1) [] ((k, v) :: r) (none : Option V)
    have hlen : (l ++ (k, v) :: r).length = l.length + (r.length + 1) := by simp
    simp only [List.nil_append, List.length_nil, Nat.zero_add] at hskip
    have hget : (l ++ (k, v) :: r)[l.length]? = some (k, v) := by simp
    rw [hlen, hskip, removeFrom, hget]
    simp only [if_pos]
    rw [removeFrom_of_notMem hout, EList.remove, hi]
    refine Prod.ext rfl ?_
    refine ((EList.lookup_eq_some ?_).mpr (by simp)).symm
    rw [List.map_append, List.map_cons, List.nodup_middle]
    exact hn
  · rw [removeFrom_of_notMem hk, EList.remove, EList.indexOf_eq_none hk, EList.lookup_eq_none.mpr hk]

lemma leave_ok (h : x.At c m) {did_acquire : Bool} : (leave x did_acquire ret).Ok c m ∧
    (leave x did_acquire ret).role c =
      if did_acquire then .locked x.parent_ptr (bucketOf c x) else .free := by
  cases did_acquire with
  | false => exact ⟨trivial, rfl⟩
  | true => exact ⟨h, rfl⟩

/-- What the closures do with the list that the loop has read. -/
lemma apply_ok (h : x.At c m) (hn : x.Names c curr) (is_local : Bool)
    (hnodup : ((m.elists x.parent_ptr (bucketOf c x)).map Prod.fst).Nodup) :
    (apply c is_local x curr true (m.elists x.parent_ptr (bucketOf c x))).Ok c m ∧
      (apply c is_local x curr true (m.elists x.parent_ptr (bucketOf c x))).role c =
        .locked x.parent_ptr (bucketOf c x) := by
  obtain ⟨op, parent_ptr, path, depth, count⟩ := x
  have hleave : ∀ ret, (leave ⟨op, parent_ptr, path, depth, count⟩ true ret).Ok c m ∧
      (leave ⟨op, parent_ptr, path, depth, count⟩ true ret).role c =
        .locked parent_ptr (bucketOf c ⟨op, parent_ptr, path, depth, count⟩) :=
    fun ret => leave_ok h
  rw [apply]
  cases op with
  | contains k => exact hleave _
  | insert k v =>
    dsimp only
    split_ifs with hk hlen hlocal
    · exact hleave _
    · exact hleave _
    · exact ⟨⟨h, hn, .insert (by simpa using hk) hlen⟩, rfl⟩
    · exact ⟨⟨h, hn⟩, rfl⟩
  | remove k =>
    dsimp only at hnodup ⊢
    rw [removeFrom_eq hnodup]
    split_ifs with hk
    · exact hleave _
    · exact ⟨⟨h, hn, .remove⟩, rfl⟩

/-- An operation that has not taken the lock only looks. -/
lemma apply_free {is_local : Bool} (hf : c.free x.op) :
    apply c is_local x curr false e = .done x.op (e.lookup x.op.key) := by
  obtain ⟨op, parent_ptr, path, depth, count⟩ := x
  cases op with
  | contains k => rfl
  | insert k v => cases hf
  | remove k => cases hf

/-! ### The steps -/

section Locked

variable (h : s.Inv c) (hr : (s.pc t).role c = .locked x.parent_ptr (bucketOf c x))

include h hr

lemma State.Inv.base : (s.memory.plists x.parent_ptr (bucketOf c x)).base =
    .elist x.parent_ptr (bucketOf c x) := by
  have hok := h.locks.ok t
  rw [hr] at hok
  rw [show s.memory.plists x.parent_ptr (bucketOf c x) = _ from hok]

lemma State.Inv.nodup : ((s.memory.elists x.parent_ptr (bucketOf c x)).map Prod.fst).Nodup := by
  have hlinked := (h.locks.onPath (t := t) (by rw [hr]; rfl)).linked
  have hn := h.locks.memory.tree.placed.nodup x.parent_ptr (bucketOf c x)
  rwa [items_of_linked hlinked (by rw [h.base hr, child_elist])] at hn

end Locked

lemma State.Inv.snapshot (h : s.Inv c) (p : A) (i : ℕ) :
    (s.memory.plists p i).Tells s.memory p i :=
  (h.locks.memory.sound p i).tells

lemma State.Inv.writeElist (h : s.Inv c) (ht : s.pc t = .writeElist x curr e ret) :
    (s.put (s.memory.setElist x.parent_ptr (bucketOf c x) e) t (.unlock x ret)).Inv c := by
  have hok := h.ok t
  rw [ht] at hok
  have hr : (s.pc t).role c = .locked x.parent_ptr (bucketOf c x) := by rw [ht]; rfl
  obtain ⟨f, hf⟩ := h.locks.memory.tree.placed.exists_represents
  have hwrite := hok.1.stands.holds_write (h.base hr) ⟨h.locks.memory.tree.placed, hf⟩ hok.2.2
  have hlocks := h.locks.write hr (hok.2.2.length_le (h.locks.memory.full _ _)) hwrite.2.placed
  have hsame := Function.update_eq_self t fun u => (s.pc u).role c
  rw [hr] at hsame
  exact h.put (by rwa [Pc.role, hsame]) (grows_setElist e) (fun u hu => h.locks.write_keeps hr hu)
    (hok.1.grows (grows_setElist e))

/-- A read of a PList, whatever the client makes of its layers. -/
lemma State.Inv.enters (h : s.Inv c) (hok : x.At c s.memory) (hs : x.Snapshot s.memory curr)
    (he : enter c x curr = some pc) (hr : (s.pc t).role c = .free) : (s.put s.memory t pc).Inv c := by
  obtain ⟨hpc, hrole⟩ := entered_ok hok hs (entered_of_enter he)
  exact h.quiet hpc (hrole.trans hr.symm)

lemma State.Inv.try_cache (h : s.Inv c) (hx : x.At c s.memory) :
    State.Inv c (⟨s.memory, s.owner, Function.update s.layers t
      (try_cache c (s.layers t) x.path (s.memory.plists x.parent_ptr)), s.pc⟩ : State A K V N T) := by
  refine ⟨h.locks, h.ok, fun {u y} hs => ?_⟩
  by_cases hu : u = t
  · subst hu
    simp only [Function.update_self] at hs
    rcases mem_try_cache hs with hs | ⟨hy, hall⟩
    · exact h.saved hs
    · have hlen : x.path.length = x.depth - 1 := by rw [hx.path, length_bucketPath]
      rw [hlen] at hall hy
      rw [hy]
      exact ⟨x.op.key, x.depth - 1, x.parent_ptr, hx.path, hx.stands.path, rfl, h.snapshot _, hall⟩
  · simp only [Function.update_of_ne hu] at hs
    exact h.saved hs

lemma State.Inv.step (h : s.Inv c) (hu : Unmixed c s) {a : Act A K V T} (hs : Step c n s a s') :
    s'.Inv c := by
  cases hs with
  | @call t op ht => exact h.quiet ⟨Stands.start, rfl⟩ (by rw [ht]; rfl)
  | @hit t x cache pc ht hf he =>
    have hok := h.ok t
    rw [ht] at hok
    obtain ⟨y, hs⟩ := mem_of_fetch_cache hf
    have hsnap := Context.At.snapshot_saved hok (h.saved hs) (hu t x cache ht hf)
    exact h.enters hok hsnap he (by rw [ht]; rfl)
  | @miss t x ht hf =>
    have hok := h.ok t
    rw [ht] at hok
    exact h.quiet hok (by rw [ht]; rfl)
  | @extendedRead t x pc ht he =>
    have hok := h.ok t
    rw [ht] at hok
    exact (h.try_cache (t := t) hok).enters hok (h.snapshot _) he (by simp only [ht]; rfl)
  | @refetch t x pc ht he =>
    have hok := h.ok t
    rw [ht] at hok
    exact h.enters hok (h.snapshot _) he (by rw [ht]; rfl)
  | @acquire t x curr ht hl =>
    have hok := h.ok t
    rw [ht] at hok
    have ho := hok.1.stands.onPath
    have hg := (h.locks.acquire_grows ho hl).2
    have hbase := (h.locks.memory.sound x.parent_ptr (bucketOf c x)).base_of_e_unlocked hl
    exact h.put (h.locks.acquire ho hl (by rw [ht]; rfl)) hg
      (fun u _ => h.locks.acquire_keeps ho hl u)
      ⟨hok.1.grows hg, hok.2.grows hg, (hok.2 _).elist hbase⟩
  | @calcified t x curr ht hl =>
    have hok := h.ok t
    rw [ht] at hok
    exact h.quiet hok.1 (by rw [ht]; rfl)
  | spin ht hl => exact h
  | @readElist t x curr did_acquire p i ht hb _ =>
    have hok := h.ok t
    rw [ht] at hok
    obtain ⟨hx, hsnap, hacq⟩ := hok
    cases did_acquire with
    | false =>
      rw [apply_free hacq]
      exact h.quiet trivial (by rw [ht]; rfl)
    | true =>
      have hn : x.Names c curr := hacq
      rw [hn] at hb
      cases hb
      have hr : (s.pc t).role c = .locked x.parent_ptr (bucketOf c x) := by rw [ht]; rfl
      obtain ⟨hpc, hrole⟩ := apply_ok hx hn (s.owner x.parent_ptr = n.self t) (h.nodup hr)
      exact h.quiet hpc (hrole.trans hr.symm)
  | @guard t x curr did_acquire ht hlong =>
    have hok := h.ok t
    rw [ht] at hok
    obtain ⟨hx, hsnap, hacq⟩ := hok
    cases did_acquire with
    | false => exact h.quiet ⟨hx, hsnap⟩ (by rw [ht]; rfl)
    | true =>
      have hfull := h.locks.memory.full x.parent_ptr (bucketOf c x)
      have hlt := hlong _ _ hacq
      omega
  | @writeElist t x curr e ret p i ht hb =>
    have hok := h.ok t
    rw [ht] at hok
    rw [hok.2.1] at hb
    cases hb
    exact h.writeElist ht
  | @changePointer t x new_p ht =>
    have hok := h.ok t
    rw [ht] at hok
    have hr : (s.pc t).role c = .made x.parent_ptr (bucketOf c x) new_p := by rw [ht]; rfl
    have hg := h.locks.publish_grows hr false
    exact h.put (h.locks.publish hr _) hg (fun u hu => h.locks.publish_keeps hr _ hu)
      (Context.At.grows hok hg)
  | @permUnlock t x ht =>
    have hok := h.ok t
    rw [ht] at hok
    have hr : (s.pc t).role c = .published x.parent_ptr (bucketOf c x) := by rw [ht]; rfl
    exact h.put (h.locks.permUnlock hr) (grows_send _) (fun u _ => .send)
      (Context.At.grows hok (grows_send _))
  | @unlock t x ret ht =>
    have hr : (s.pc t).role c = .locked x.parent_ptr (bucketOf c x) := by rw [ht]; rfl
    exact h.put (h.locks.unlock hr) (grows_send _) (fun u _ => .send) trivial
  | @allocate t new_p x curr p i ht hb hn =>
    have hok := h.ok t
    rw [ht] at hok
    rw [hok.2] at hb
    cases hb
    have hr : (s.pc t).role c = .locked x.parent_ptr (bucketOf c x) := by rw [ht]; rfl
    have hstands := hok.1.stands
    have hg : Grows s.memory (s.memory.rehash c x.count x.depth
        (s.memory.elists x.parent_ptr (bucketOf c x)) new_p) := grows_rehash h.locks.memory hn
    have hre := hstands.rehashed (h.base hr) h.locks.memory
    rw [hstands.items (h.base hr)] at hre
    have ho := h.owner (Function.update s.owner new_p (n.self t))
    exact ho.put (h.locks.allocate hn hr hstands.path hstands.bucket.symm hre) hg
      (fun u _ => h.locks.allocate_keeps hn u) (hok.1.grows hg)
  | land hn =>
    exact ⟨h.locks.land hn, fun u => (h.ok u).keep (h.locks.land_keeps hn u),
      fun hs => (h.saved hs).grows (h.locks.memory.land hn).2⟩
  | @finish t op ret ht => exact h.quiet trivial (by rw [ht]; rfl)

/-- The invariant at every state of a run up to which no slot was fetched for another path. -/
theorem inv_of_unmixed (r : (machine c n : Machine (State A K V N T) (Act A K V T)).Run) {i : ℕ}
    (hi : i ≤ r.len) (h : ∀ j < i, Unmixed c (r.state j)) : (r.state i).Inv c := by
  induction i with
  | zero =>
    rw [show r.state 0 = initial c n from r.start]
    exact ⟨.initial, fun t => trivial, fun hs => by cases hs⟩
  | succ i ih =>
    exact (ih (by omega) fun j hj => h j (by omega)).step (h i (by omega))
      (step_cases (r.next i (by omega)))

end ObjectCache.Iht.Tuned
