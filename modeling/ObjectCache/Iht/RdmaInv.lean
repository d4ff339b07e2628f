import ObjectCache.Iht.RdmaLocks
import ObjectCache.Iht.RdmaSteps

/-! What every client of `RdmaIHT` knows while the others go on, and the invariant of its steps. -/

set_option linter.unusedSectionVars false

namespace ObjectCache.Iht.Rdma

open Lib Cache

variable {A K V T : Type} [DecidableEq A] [DecidableEq K] [DecidableEq T]

variable {c : Config A K} {m m' : Memory A K V} {s s' : State A K V T} {t u : T}
  {x : Cursor A K V} {curr : PList A} {pc : Pc A K V} {e : EList K V} {p : A} {i : ℕ}

/-! ### What a client knows -/

abbrev Cursor.Stands (c : Config A K) (m : Memory A K V) (x : Cursor A K V) : Prop :=
  Rdma.Stands c m x.op.key x.parent_ptr x.depth x.count

/-- The snapshot that the loop descends with. -/
def Snapshot (m : Memory A K V) (x : Cursor A K V) (curr : PList A) : Prop :=
  ∀ i, (curr i).Tells m x.parent_ptr i

lemma Snapshot.grows (h : Snapshot m x curr) (hg : Grows m m') : Snapshot m' x curr :=
  fun i => (h i).grows hg

/-- The loop has locked the bucket that it is at, and its copy names the EList. -/
structure Cursor.Holds (c : Config A K) (m : Memory A K V) (x : Cursor A K V) : Prop where
  stands : x.Stands c m
  updates : c.free x.op = false

def Names (c : Config A K) (x : Cursor A K V) (curr : PList A) : Prop :=
  (curr (c.bucket x)).base = .elist x.parent_ptr (c.bucket x)

def Pc.Ok (c : Config A K) (m : Memory A K V) : Pc A K V → Prop
  | .idle | .done _ _ => True
  | .extendedRead x | .invalidate x => x.Stands c m
  | .acquire x curr => x.Holds c m ∧ Snapshot m x curr
  | .readElist x curr =>
    if c.free x.op then x.Stands c m ∧ Snapshot m x curr else x.Holds c m ∧ Names c x curr
  | .writeElist x curr e ret => x.Holds c m ∧ Names c x curr ∧
    Pending c (m.elists x.parent_ptr (c.bucket x)) x.op e ret
  | .rehash x curr => x.Holds c m ∧ Names c x curr
  | .changePointer x _ | .permUnlock x | .unlock x _ => x.Holds c m

def Pc.role (c : Config A K) : Pc A K V → Role A
  | .readElist x _ => if c.free x.op then .free else .locked x.parent_ptr (c.bucket x)
  | .writeElist x _ _ _ | .rehash x _ | .unlock x _ => .locked x.parent_ptr (c.bucket x)
  | .changePointer x new_p => .made x.parent_ptr (c.bucket x) new_p
  | .permUnlock x => .published x.parent_ptr (c.bucket x)
  | .idle | .extendedRead _ | .acquire _ _ | .invalidate _ | .done _ _ => .free

lemma Cursor.Holds.grows (h : x.Holds c m) (hg : Grows m m') : x.Holds c m' :=
  ⟨h.stands.grows hg, h.updates⟩

lemma Pc.Ok.keep (h : pc.Ok c m) (hk : Keeps c m m' (pc.role c)) : pc.Ok c m' := by
  have hg := hk.toGrows
  cases pc with
  | idle => trivial
  | done op ret => trivial
  | extendedRead x => exact Stands.grows h hg
  | invalidate x => exact Stands.grows h hg
  | acquire x curr => exact ⟨h.1.grows hg, h.2.grows hg⟩
  | readElist x curr =>
    rw [Pc.Ok] at h ⊢
    split_ifs at h ⊢
    · exact ⟨h.1.grows hg, h.2.grows hg⟩
    · exact ⟨h.1.grows hg, h.2⟩
  | writeElist x curr e ret =>
    obtain ⟨-, he⟩ := hk.held (p := x.parent_ptr) (i := c.bucket x) rfl
    exact ⟨h.1.grows hg, h.2.1, by rw [he]; exact h.2.2⟩
  | rehash x curr => exact ⟨h.1.grows hg, h.2⟩
  | changePointer x new_p => exact Cursor.Holds.grows h hg
  | permUnlock x => exact Cursor.Holds.grows h hg
  | unlock x ret => exact Cursor.Holds.grows h hg

/-! ### The invariant -/

structure State.Inv (c : Config A K) (s : State A K V T) : Prop where
  locks : Locks c s.memory fun t => (s.pc t).role c
  ok : ∀ t, (s.pc t).Ok c s.memory

lemma put_pc_self : (s.put m t pc).pc t = pc := Function.update_self ..

lemma put_pc_other (hu : u ≠ t) : (s.put m t pc).pc u = s.pc u := Function.update_of_ne hu ..

lemma role_put : (fun u => ((s.put m t pc).pc u).role c) =
    Function.update (fun u => (s.pc u).role c) t (pc.role c) := by
  funext u
  by_cases hu : u = t
  · subst hu
    rw [put_pc_self, Function.update_self]
  · rw [put_pc_other hu, Function.update_of_ne hu]

lemma State.Inv.put (h : s.Inv c) (hl : Locks c m (Function.update (fun u => (s.pc u).role c) t
    (pc.role c))) (hkeep : ∀ u, u ≠ t → Keeps c s.memory m ((s.pc u).role c)) (hok : pc.Ok c m) :
    (s.put m t pc).Inv c where
  locks := by
    rw [role_put]
    exact hl
  ok u := by
    by_cases hu : u = t
    · subst hu
      rw [put_pc_self]
      exact hok
    · rw [put_pc_other hu]
      exact (h.ok u).keep (hkeep u hu)

/-- A step that neither touches memory nor locks anything. -/
lemma State.Inv.quiet (h : s.Inv c) (hok : pc.Ok c s.memory) (hr : pc.role c = (s.pc t).role c) :
    (s.put s.memory t pc).Inv c := by
  refine h.put ?_ (fun u _ => .refl) hok
  rw [hr, Function.update_eq_self t fun u => (s.pc u).role c]
  exact h.locks

section Locked

variable (h : s.Inv c) (hr : (s.pc t).role c = .locked x.parent_ptr (c.bucket x))

include h hr

lemma State.Inv.bucket : s.memory.plists x.parent_ptr (c.bucket x) =
    ⟨.elist x.parent_ptr (c.bucket x), .e_locked⟩ := by
  have hok := h.locks.ok t
  rw [hr] at hok
  exact hok

lemma State.Inv.base : (s.memory.plists x.parent_ptr (c.bucket x)).base =
    .elist x.parent_ptr (c.bucket x) := by
  rw [h.bucket hr]

end Locked

lemma descent_ok (h : x.Stands c m) (hs : Snapshot m x curr) (hd : Descent c x curr pc) :
    pc.Ok c m ∧ pc.role c = .free := by
  cases hd with
  | @down p marked hl hb =>
    obtain ⟨q, marked', hq, hm⟩ := (hs (c.bucket x)).plist hl
    rw [hb] at hq
    cases hq
    exact ⟨Stands.down h hm, rfl⟩
  | lookup _ hf =>
    refine ⟨?_, if_pos hf⟩
    rw [Pc.Ok, if_pos hf]
    exact ⟨h, hs⟩
  | lock _ hf => exact ⟨⟨⟨h, hf⟩, hs⟩, rfl⟩

/-- What an operation that holds the lock does with the list it has read. -/
lemma withElist_ok (hh : x.Holds c m) (hb : Names c x curr) :
    (withElist c x curr (m.elists x.parent_ptr (c.bucket x))).Ok c m ∧
      (withElist c x curr (m.elists x.parent_ptr (c.bucket x))).role c =
        .locked x.parent_ptr (c.bucket x) := by
  obtain ⟨op, parent_ptr, marked, depth, count⟩ := x
  have hf := hh.updates
  rw [withElist]
  cases op with
  | contains k =>
    simp only [Config.free] at hf
    simp only [hf]
    exact ⟨hh, rfl⟩
  | insert k v =>
    dsimp only
    split_ifs with hk hlen
    · exact ⟨hh, rfl⟩
    · exact ⟨⟨hh, hb, .insert (by simpa using hk) hlen⟩, rfl⟩
    · exact ⟨⟨hh, hb⟩, rfl⟩
  | remove k =>
    dsimp only
    split_ifs with hk
    · exact ⟨⟨hh, hb, .remove⟩, rfl⟩
    · exact ⟨hh, rfl⟩

/-- A lookup that takes no lock is done with the list it has read. -/
lemma withElist_free (hf : c.free x.op) : withElist c x curr e = .done x.op (e.lookup x.op.key) := by
  obtain ⟨op, parent_ptr, marked, depth, count⟩ := x
  cases op with
  | contains k =>
    rw [withElist]
    exact if_pos hf
  | insert k v => cases hf
  | remove k => cases hf

lemma Pc.Ok.readElist (h : (Pc.readElist x curr : Pc A K V).Ok c m) (hf : ¬ c.free x.op) :
    x.Holds c m ∧ Names c x curr := by
  rwa [Pc.Ok, if_neg hf] at h

/-- The write of an update keeps every pair on its path. -/
lemma State.Inv.writeElist (h : s.Inv c) {ret : Option V} (ht : s.pc t = .writeElist x curr e ret) :
    (s.put (s.memory.setElist x.parent_ptr (c.bucket x) e) t (.unlock x ret)).Inv c := by
  have hok := h.ok t
  rw [ht] at hok
  have hr : (s.pc t).role c = .locked x.parent_ptr (c.bucket x) := by rw [ht]; rfl
  obtain ⟨f, hf⟩ := h.locks.memory.tree.placed.exists_represents
  have hwrite := hok.1.stands.holds_write (h.base hr) ⟨h.locks.memory.tree.placed, hf⟩ hok.2.2
  have hlocks := h.locks.write hr (hok.2.2.length_le (h.locks.memory.full _ _)) hwrite.2.placed
  have hsame := Function.update_eq_self t fun u => (s.pc u).role c
  rw [hr] at hsame
  exact h.put (by rwa [Pc.role, hsame]) (fun u hu => h.locks.write_keeps hr hu)
    (hok.1.grows (grows_setElist e))

lemma State.Inv.step (h : s.Inv c) {a : Act A K V T} (hs : Step c s a s') : s'.Inv c := by
  cases hs with
  | @call t op ht => exact h.quiet Stands.start (by rw [ht]; rfl)
  | @read t age x curr pc ht hc hd =>
    have hok := h.ok t
    rw [ht] at hok
    obtain ⟨hpc, hr⟩ := descent_ok hok (h.locks.memory.copy (List.mem_of_getElem? hc)) hd
    exact h.quiet hpc (by rw [hr, ht]; rfl)
  | @acquire t x curr ht hl =>
    have hok := h.ok t
    rw [ht] at hok
    have ho := hok.1.stands.onPath
    have hbase := (h.locks.memory.sound x.parent_ptr (c.bucket x)).base_of_e_unlocked hl
    have hrole : (Pc.readElist x curr : Pc A K V).role c = .locked x.parent_ptr (c.bucket x) := by
      simp [Pc.role, hok.1.updates]
    refine h.put ?_ (fun u _ => h.locks.acquire_keeps ho hl u) ?_
    · rw [hrole]
      exact h.locks.acquire ho hl (by rw [ht]; rfl)
    · rw [Pc.Ok, if_neg (by simp [hok.1.updates])]
      exact ⟨hok.1.grows (h.locks.acquire_grows ho hl).2, (hok.2 _).elist hbase⟩
  | @calcified t x curr ht hl =>
    have hok := h.ok t
    rw [ht] at hok
    exact h.quiet hok.1.stands (by rw [ht]; rfl)
  | spin ht hl => exact h
  | @readElist t x curr p i ht hb =>
    have hok := h.ok t
    rw [ht] at hok
    by_cases hf : c.free x.op
    · rw [withElist_free hf]
      exact h.quiet trivial (by rw [ht]; exact (if_pos hf).symm)
    · obtain ⟨hh, hn⟩ := hok.readElist hf
      rw [hn] at hb
      cases hb
      obtain ⟨hpc, hr⟩ := withElist_ok hh hn
      exact h.quiet hpc (by rw [hr, ht]; exact (if_neg hf).symm)
  | @writeElist t x curr e ret p i ht hb =>
    have hok := h.ok t
    rw [ht] at hok
    rw [hok.2.1] at hb
    cases hb
    exact h.writeElist ht
  | @changePointer t x new_p ht =>
    have hok := h.ok t
    rw [ht] at hok
    have hr : (s.pc t).role c = .made x.parent_ptr (c.bucket x) new_p := by rw [ht]; rfl
    exact h.put (h.locks.publish hr _) (fun u hu => h.locks.publish_keeps hr _ hu)
      (Cursor.Holds.grows hok (h.locks.publish_grows hr _))
  | @permUnlock t x ht =>
    have hok := h.ok t
    rw [ht] at hok
    have hr : (s.pc t).role c = .published x.parent_ptr (c.bucket x) := by rw [ht]; rfl
    exact h.put (h.locks.permUnlock hr) (fun u _ => .send)
      (Stands.grows hok.stands (grows_send _))
  | @invalidate t x ht =>
    have hok := h.ok t
    rw [ht] at hok
    exact h.quiet hok (by rw [ht]; rfl)
  | @unlock t x ret ht =>
    have hr : (s.pc t).role c = .locked x.parent_ptr (c.bucket x) := by rw [ht]; rfl
    exact h.put (h.locks.unlock hr) (fun u _ => .send) trivial
  | @allocate t new_p x curr p i ht hb hn =>
    have hok := h.ok t
    rw [ht] at hok
    rw [hok.2] at hb
    cases hb
    have hr : (s.pc t).role c = .locked x.parent_ptr (c.bucket x) := by rw [ht]; rfl
    have hstands := hok.1.stands
    have hre := hstands.rehashed (h.base hr) h.locks.memory
    rw [hstands.items (h.base hr)] at hre
    exact h.put (h.locks.allocate hn hr hstands.path hstands.bucket.symm hre)
      (fun u _ => h.locks.allocate_keeps hn u) (hok.1.grows (h.locks.allocate_keeps hn t).toGrows)
  | @misread t ret x curr q marked ht hb hf =>
    exact h.quiet trivial (by rw [ht]; exact (if_pos hf).symm)
  | land hn => exact ⟨h.locks.land hn, fun u => (h.ok u).keep (h.locks.land_keeps hn u)⟩
  | @finish t op ret ht => exact h.quiet trivial (by rw [ht]; rfl)

theorem inv_of_reachable (h : (machine c).Reachable s) : s.Inv c := by
  refine h.invariant (fun s hs => ?_) fun s a s' hi hs => hi.step (step_cases hs)
  rw [hs]
  exact ⟨.initial, fun t => trivial⟩

end ObjectCache.Iht.Rdma
