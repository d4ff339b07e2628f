import ObjectCache.Lib.Counting
import ObjectCache.Rdmask.Steps

/-! No thread of `RdmaSkipList` ever sees a node that has not been linked, however old the copies that the caches
give it. -/

set_option linter.unusedSectionVars false

namespace ObjectCache.Rdmask

open Lib

variable {A K V T : Type}

/-! ### What a thread has seen -/

/-- A pointer leads nowhere or to a linked node. -/
def Known (s : State A K V T) (p : Ptr A) : Prop := ∀ a, p.address = some a → a ∈ s.linked

/-- A copy of a linked node. -/
structure Sound (s : State A K V T) (o : Obj A K V) : Prop where
  seen : ∃ a ∈ s.linked, o.remote_origin.address = some a ∧ Reads (s.memory.log a) o.node
  next : ∀ level, Known s (o.node.next level)

structure Fill.Sound (s : State A K V T) (f : Fill A K V) : Prop where
  curr : Rdmask.Sound s f.curr
  next_curr : ∀ o, f.next_curr = some o → Rdmask.Sound s o
  level : ∀ height, Known s (f.level height).pred ∧ Known s (f.level height).succ

def Caller.Sound (s : State A K V T) : Caller A K V → Prop
  | .nonblock _ _ => True
  | .unlink curr _ => Rdmask.Sound s curr
  | .raise curr => Rdmask.Sound s curr ∧ 1 < curr.node.height

/-- A new node that only its thread knows. -/
structure Private (s : State A K V T) (op : MapOp K V) (a : A) : Prop where
  allocated : a ∈ s.allocated
  unlinked : a ∉ s.linked
  kept : a ∉ s.requeued
  node : ∃ k value height next, op = .insert k value ∧ s.memory.log a = [Config.newNode k value height next]

def Live (c : Config A K V T) (v : V) : Prop := v ≠ c.delete_sentinel ∧ v ≠ c.unlink_sentinel

def Ok (c : Config A K V T) (s : State A K V T) : Pc A K V → Prop
  | .idle | .findRoot _ | .helperRoot | .done _ _ => True
  | .find _ curr _ | .allocate _ curr | .helper curr | .claim curr | .reserve curr | .retire curr
  | .refresh curr => Sound s curr
  | .revive op curr => Sound s curr ∧ ∃ k value, op = .insert k value ∧ curr.node.key = k
  | .delete op curr => Sound s curr ∧ Live c curr.node.value ∧ op = .remove curr.node.key
  | .link op curr new_node _ => Sound s curr ∧ Private s op new_node
  | .fillRoot w => w.Sound s
  | .fill w f => w.Sound s ∧ f.Sound s
  | .nonblock _ f node => f.Sound s ∧ Sound s node
  | .mark curr _ f _ | .unlink curr _ f _ => Sound s curr ∧ f.Sound s
  | .raise curr f _ | .attach curr f _ | .settle curr f => (Sound s curr ∧ 1 < curr.node.height) ∧ f.Sound s

/-- The node that an insertion has yet to link. -/
def Pc.private : Pc A K V → Option A
  | .link _ _ new_node _ => some new_node
  | _ => none

/-- What is true of the nodes. -/
structure Heap (c : Config A K V T) (s : State A K V T) : Prop where
  root : c.root ∈ s.linked
  linked : s.linked ⊆ s.allocated
  requeued : s.requeued ⊆ s.allocated
  disjoint : ∀ a ∈ s.requeued, a ∉ s.linked
  linked_nodup : s.linked.Nodup
  requeued_nodup : s.requeued.Nodup
  written : ∀ a ∈ s.allocated, s.memory.log a ≠ []
  unwritten : ∀ a, a ∉ s.allocated → s.memory.log a = []
  same : ∀ a, ∀ x ∈ s.memory.log a, ∀ y ∈ s.memory.log a, x.key = y.key ∧ x.height = y.height
  next : ∀ a, ∀ x ∈ s.memory.log a, ∀ level, Known s (x.next level)

structure Inv (c : Config A K V T) (s : State A K V T) : Prop where
  heap : Heap c s
  pc : ∀ t, Ok c s (s.pc t)
  apart : ∀ {t u a}, (s.pc t).private = some a → (s.pc u).private = some a → t = u

/-- Nothing that a thread has seen is lost. -/
structure Grows (s s' : State A K V T) : Prop where
  linked : s.linked ⊆ s'.linked
  log : ∀ a, s.memory.log a ⊆ s'.memory.log a

variable {c : Config A K V T} {s s' : State A K V T} {t u : T} {p : Ptr A} {o : Obj A K V} {f : Fill A K V}
  {w : Caller A K V} {pc : Pc A K V} {op : MapOp K V} {a b : A} {n : Node A K V} {ns : List (Node A K V)}
  {m : Memory A K V} {l : Level A K}

lemma Grows.of_eq (hl : s'.linked = s.linked) (hm : s'.memory = s.memory) : Grows s s' := by
  refine ⟨?_, fun a => ?_⟩
  · rw [hl]
    exact List.Subset.refl _
  · rw [hm]
    exact List.Subset.refl _

lemma Known.grows (h : Known s p) (hg : Grows s s') : Known s' p := fun a ha => hg.linked (h a ha)

lemma Known.sans (h : Known s p) : Known s p.sans := h

lemma Known.null : Known s (.null : Ptr A) := by
  intro a ha
  cases ha

lemma Sound.grows (h : Sound s o) (hg : Grows s s') : Sound s' o := by
  obtain ⟨⟨a, ha, horigin, hreads⟩, hnext⟩ := h
  exact ⟨⟨a, hg.linked ha, horigin, hreads.mono (hg.log a)⟩, fun level => (hnext level).grows hg⟩

lemma Sound.known (h : Sound s o) : Known s o.remote_origin := by
  obtain ⟨⟨a, ha, horigin, -⟩, -⟩ := h
  intro b hb
  rw [horigin, Option.some.injEq] at hb
  rwa [← hb]

lemma Fill.Sound.grows (h : f.Sound s) (hg : Grows s s') : f.Sound s' where
  curr := h.curr.grows hg
  next_curr o ho := (h.next_curr o ho).grows hg
  level height := ⟨(h.level height).1.grows hg, (h.level height).2.grows hg⟩

lemma Caller.Sound.grows (h : w.Sound s) (hg : Grows s s') : w.Sound s' := by
  cases w with
  | nonblock op key => trivial
  | unlink curr retries => exact Rdmask.Sound.grows h hg
  | raise curr => exact ⟨Rdmask.Sound.grows h.1 hg, h.2⟩

/-- What a thread has seen stays sound, and so does the node that it has yet to link. -/
lemma Ok.grows (h : Ok c s pc) (hg : Grows s s')
    (hpriv : ∀ op a, pc.private = some a → Private s op a → Private s' op a) : Ok c s' pc := by
  cases pc with
  | idle | findRoot op | helperRoot | done op ret => trivial
  | find op curr height | allocate op curr | helper curr | claim curr | reserve curr | retire curr
  | refresh curr => exact Sound.grows h hg
  | revive op curr | delete op curr => exact ⟨h.1.grows hg, h.2⟩
  | link op curr new_node height => exact ⟨h.1.grows hg, hpriv op new_node rfl h.2⟩
  | fillRoot w => exact Caller.Sound.grows h hg
  | fill w f => exact ⟨h.1.grows hg, h.2.grows hg⟩
  | nonblock op f node => exact ⟨h.1.grows hg, h.2.grows hg⟩
  | mark curr retries f height | unlink curr retries f height => exact ⟨h.1.grows hg, h.2.grows hg⟩
  | raise curr f height | attach curr f height | settle curr f =>
    exact ⟨⟨h.1.1.grows hg, h.1.2⟩, h.2.grows hg⟩

/-! ### Looking -/

section Looks

variable [DecidableEq A] [LinearOrder K] [DecidableEq V] [DecidableEq T] {v : Version}

lemma Inv.read (h : Inv c s) (hp : Known s p) (hr : s.memory.read p v = some o) : Sound s o := by
  obtain ⟨a, ha, rfl, hreads⟩ := read_reads hr
  refine ⟨⟨a, hp a ha, ha, hreads⟩, fun level => ?_⟩
  obtain ⟨x, hx, heq⟩ := hreads.next level
  rw [← heq]
  exact h.heap.next a x hx level

lemma Inv.root_known (h : Inv c s) : Known s (c.root_ptr t) := by
  intro a ha
  cases ha
  exact h.heap.root

lemma found_ok (h : Sound s o) : Ok c s (found c op o) := by
  cases op with
  | contains k => trivial
  | insert k value =>
    simp only [found]
    split_ifs with hk
    · trivial
    · exact ⟨h, k, value, rfl, hk⟩
    · trivial
    · exact h
  | remove k =>
    simp only [found]
    split_ifs with hk hlive
    · trivial
    · exact ⟨h, hlive, by rw [not_not.mp hk]⟩
    · trivial

lemma descend_ok (h : Sound s o) (height : ℕ) : Ok c s (descend c op o height) := by
  cases height with
  | zero => exact found_ok h
  | succ height => exact h

lemma Inv.stepFind (h : Inv c s) (hs : Sound s o) {height : ℕ}
    (hf : stepFind c s op o height v = some pc) : Ok c s pc := by
  rw [Rdmask.stepFind] at hf
  split_ifs at hf
  · cases hf
    exact found_ok hs
  · cases hf
    exact descend_ok hs height
  · obtain ⟨next_curr, hr, rfl⟩ := Option.map_eq_some_iff.mp hf
    split_ifs
    · trivial
    · exact h.read (hs.next height).sans hr
    · exact descend_ok hs height

lemma filled_ok (hw : w.Sound s) (hf : f.Sound s) (h : filled c f w = some pc) : Ok c s pc := by
  cases w with
  | nonblock op key =>
    simp only [filled] at h
    split_ifs at h
    · obtain ⟨node, hnode, rfl⟩ := Option.map_eq_some_iff.mp h
      split_ifs
      · exact ⟨hf, hf.next_curr node hnode⟩
      · trivial
    · cases h
      trivial
  | unlink curr retries =>
    cases h
    exact ⟨hw, hf⟩
  | raise curr =>
    cases h
    exact ⟨hw, hf⟩

lemma Fill.Sound.descend (hf : f.Sound s) (hw : w.Sound s) (hl : Known s l.pred ∧ Known s l.succ)
    (h : f.descend c w l = some pc) : Ok c s pc := by
  have hlevel : ∀ height, Known s (Function.update f.level f.height l height).pred ∧
      Known s (Function.update f.level f.height l height).succ := by
    intro height
    by_cases hh : height = f.height
    · subst hh
      rwa [Function.update_self]
    · rw [Function.update_of_ne hh]
      exact hf.level height
  rw [Fill.descend] at h
  cases hh : f.height with
  | zero =>
    simp only [hh] at h
    refine filled_ok hw ?_ h
    rw [hh] at hlevel
    exact ⟨hf.curr, hf.next_curr, hlevel⟩
  | succ height =>
    simp only [hh, Option.some.injEq] at h
    subst h
    rw [hh] at hlevel
    exact ⟨hw, hf.curr, hf.next_curr, hlevel⟩

lemma Inv.stepFill (h : Inv c s) (hw : w.Sound s) (hf : f.Sound s) (hs : stepFill c s w f v = some pc) :
    Ok c s pc := by
  rw [Rdmask.stepFill] at hs
  split_ifs at hs
  · exact hf.descend hw ⟨hf.curr.known, Known.null⟩ hs
  · obtain ⟨next_curr, hr, hs⟩ := Option.bind_eq_some_iff.mp hs
    have hnext : Sound s next_curr := h.read (hf.curr.next f.height).sans hr
    have hf' : Fill.Sound s { f with next_curr := some next_curr } := by
      refine ⟨hf.curr, fun o ho => ?_, hf.level⟩
      cases ho
      exact hnext
    split_ifs at hs
    · cases hs
      refine ⟨hw, hnext, fun o ho => ?_, hf.level⟩
      cases ho
    · exact hf'.descend hw ⟨hf.curr.known, hnext.next f.height⟩ hs
    · exact hf'.descend hw ⟨hf.curr.known, hnext.known⟩ hs

lemma visit_ok (h : Sound s o) : Ok c s (visit c o) := by
  rcases visit_cases c o with hv | hv | hv <;> rw [hv] <;> exact h

lemma unlinkNode_ok (h : Sound s o) (retries : ℕ) : Ok c s (unlinkNode c o retries) := by
  rcases unlinkNode_cases c o retries with hv | hv <;> rw [hv] <;> exact h

lemma Inv.looks (h : Inv c s) {pc' : Pc A K V} (hok : Ok c s pc) (hl : Looks c s t pc pc') : Ok c s pc' := by
  cases hl with
  | findRoot hr | helperRoot hr => exact h.read h.root_known hr
  | find hf => exact h.stepFind hok hf
  | revived ha hl hne =>
    split_ifs
    · trivial
    · trivial
  | deleted => trivial
  | fillRoot hr =>
    refine ⟨hok, h.read h.root_known hr, fun o ho => ?_, fun height => ⟨.null, .null⟩⟩
    cases ho
  | fill hf => exact h.stepFill hok.1 hok.2 hf
  | unhelped hpc =>
    rcases hpc with rfl | rfl
    · trivial
    · trivial
  | again => trivial
  | helper hr => exact visit_ok (h.read (hok.next 0).sans hr)
  | unclaimed | unreserved => exact hok
  | unlinked => exact hok.1
  | skip | marked | pass | raised => exact hok
  | remark | retry => exact unlinkNode_ok hok.1 _
  | reraise | reattach => exact hok.1
  | settled => exact hok.1.1
  | refresh hr => exact h.read hok.known hr

/-! ### Steps -/

lemma Ok.private (h : Ok c s pc) (ha : pc.private = some a) : ∃ op, Private s op a := by
  cases pc with
  | link op curr new_node height =>
    cases ha
    exact ⟨op, h.2⟩
  | _ => cases ha

/-- One thread goes on and leaves the new nodes of the others alone. -/
lemma Inv.change (h : Inv c s) (hheap : Heap c s') (hg : Grows s s') (hpc : s'.pc = Function.update s.pc t pc)
    (hok : Ok c s' pc)
    (hothers : ∀ u, u ≠ t → ∀ op a, (s.pc u).private = some a → Private s op a → Private s' op a)
    (hmine : ∀ a, pc.private = some a → (s.pc t).private = some a ∨ a ∉ s.allocated) : Inv c s' where
  heap := hheap
  pc u := by
    rw [hpc]
    by_cases hu : u = t
    · subst hu
      rwa [Function.update_self]
    · rw [Function.update_of_ne hu]
      exact (h.pc u).grows hg (hothers u hu)
  apart {u w a} hu hw := by
    rw [hpc] at hu hw
    refine holder_update h.apart (fun b hb => (hmine b hb).imp id fun hnew x hx hxb => ?_) hu hw
    obtain ⟨op, hpriv⟩ := (h.pc x).private hxb
    exact hnew hpriv.allocated

lemma Private.of_eq (h : Private s op a) (hallocated : s.allocated ⊆ s'.allocated) (hlinked : a ∉ s'.linked)
    (hrequeued : a ∉ s'.requeued) (hlog : s'.memory.log a = s.memory.log a) : Private s' op a where
  allocated := hallocated h.allocated
  unlinked := hlinked
  kept := hrequeued
  node := by
    rw [hlog]
    exact h.node

/-- A step that changes neither the nodes nor which of them are linked or given back. -/
lemma Inv.stay (h : Inv c s) (hpc : s'.pc = Function.update s.pc t pc) (hmemory : s'.memory = s.memory)
    (hallocated : s'.allocated = s.allocated) (hlinked : s'.linked = s.linked)
    (hrequeued : s'.requeued = s.requeued) (hok : Ok c s pc)
    (hmine : ∀ a, pc.private = some a → (s.pc t).private = some a) : Inv c s' := by
  have hg : Grows s s' := .of_eq hlinked hmemory
  have hpriv : ∀ op a, Private s op a → Private s' op a := by
    intro op a hp
    apply hp.of_eq
    · rw [hallocated]
      exact List.Subset.refl _
    · rw [hlinked]
      exact hp.unlinked
    · rw [hrequeued]
      exact hp.kept
    · rw [hmemory]
  refine h.change ?_ hg hpc (hok.grows hg fun op a _ => hpriv op a) (fun u _ op a _ => hpriv op a)
    fun a ha => .inl (hmine a ha)
  constructor
  · exact hg.linked h.heap.root
  · rw [hlinked, hallocated]
    exact h.heap.linked
  · rw [hrequeued, hallocated]
    exact h.heap.requeued
  · rw [hrequeued, hlinked]
    exact h.heap.disjoint
  · rw [hlinked]
    exact h.heap.linked_nodup
  · rw [hrequeued]
    exact h.heap.requeued_nodup
  · rw [hallocated, hmemory]
    exact h.heap.written
  · rw [hallocated, hmemory]
    exact h.heap.unwritten
  · rw [hmemory]
    exact h.heap.same
  · intro a x hx level
    rw [hmemory] at hx
    exact (h.heap.next a x hx level).grows hg

section Store

variable (h : Inv c s) (ha : a ∈ s.linked) (hl : s.memory.log a = n :: ns) {n' : Node A K V}

include h

lemma Inv.head_mem (hl : s.memory.log a = n :: ns) : n ∈ s.memory.log a := by
  rw [hl]
  exact List.mem_cons_self

include ha hl

/-- A word of a linked node is changed. -/
lemma Heap.store (hmemory : s'.memory = s.memory.store a n') (hallocated : s'.allocated = s.allocated)
    (hrequeued : s'.requeued = s.requeued) (hlinked : s.linked ⊆ s'.linked)
    (hnew : s'.linked ⊆ s.allocated ∧ (∀ a ∈ s.requeued, a ∉ s'.linked) ∧ s'.linked.Nodup)
    (hsame : n'.key = n.key ∧ n'.height = n.height) (hnext : ∀ level, Known s' (n'.next level)) :
    Heap c s' ∧ Grows s s' := by
  have hmem : ∀ b, ∀ x ∈ s'.memory.log b, x ∈ s.memory.log b ∨ b = a ∧ x = n' := by
    intro b x hx
    rw [hmemory] at hx
    by_cases hb : b = a
    · subst hb
      rw [store_self] at hx
      rcases List.mem_cons.mp hx with rfl | hx
      · exact .inr ⟨rfl, rfl⟩
      · exact .inl hx
    · rw [store_other hb] at hx
      exact .inl hx
  have hg : Grows s s' := by
    refine ⟨hlinked, fun b => ?_⟩
    rw [hmemory]
    exact log_subset_store
  refine ⟨⟨hg.linked h.heap.root, ?_, ?_, ?_, hnew.2.2, ?_, fun b hb => ?_, fun b hb => ?_,
    fun b x hx y hy => ?_, fun b x hx level => ?_⟩, hg⟩
  · rw [hallocated]
    exact hnew.1
  · rw [hrequeued, hallocated]
    exact h.heap.requeued
  · rw [hrequeued]
    exact hnew.2.1
  · rw [hrequeued]
    exact h.heap.requeued_nodup
  · rw [hallocated] at hb
    obtain ⟨x, hx⟩ := List.exists_mem_of_ne_nil _ (h.heap.written b hb)
    exact List.ne_nil_of_mem (hg.log b hx)
  · rw [hallocated] at hb
    have hne : b ≠ a := by
      rintro rfl
      exact hb (h.heap.linked ha)
    rw [hmemory, store_other hne]
    exact h.heap.unwritten b hb
  · have hold := h.heap.same b
    have hn := h.head_mem hl
    rcases hmem b x hx with hx | ⟨rfl, rfl⟩
    · rcases hmem b y hy with hy | ⟨rfl, rfl⟩
      · exact hold x hx y hy
      · rw [hsame.1, hsame.2]
        exact hold x hx n hn
    · rcases hmem b y hy with hy | ⟨-, rfl⟩
      · rw [hsame.1, hsame.2]
        exact hold n hn y hy
      · exact ⟨rfl, rfl⟩
  · rcases hmem b x hx with hx | ⟨rfl, rfl⟩
    · exact (h.heap.next b x hx level).grows hg
    · exact hnext level

/-- One thread changes a word of a linked node. -/
lemma Inv.store (hsame : n'.key = n.key ∧ n'.height = n.height) (hnext : ∀ level, Known s (n'.next level))
    (hok : Ok c s pc) (hmine : ∀ a, pc.private = some a → (s.pc t).private = some a) :
    Inv c (s.put t (s.memory.store a n') pc) := by
  obtain ⟨hheap, hg⟩ : Heap c (s.put t (s.memory.store a n') pc) ∧ Grows s (s.put t (s.memory.store a n') pc) :=
    Heap.store h ha hl rfl rfl rfl (List.Subset.refl _)
      ⟨h.heap.linked, h.heap.disjoint, h.heap.linked_nodup⟩ hsame hnext
  have hpriv : ∀ op b, Private s op b → Private (s.put t (s.memory.store a n') pc) op b := by
    intro op b hp
    have hlog : (s.put t (s.memory.store a n') pc).memory.log b = s.memory.log b := by
      apply store_other
      rintro rfl
      exact hp.unlinked ha
    exact hp.of_eq (List.Subset.refl _) hp.unlinked hp.kept hlog
  exact h.change hheap hg rfl (hok.grows hg fun op b _ => hpriv op b) (fun u _ op b _ => hpriv op b)
    fun b hb => .inl (hmine b hb)

end Store

section Swaps

variable {level old_level new_level : ℕ} {old new : Ptr A} {old_value new_value : V} {pc' : Pc A K V}

lemma links_ok (hok : Ok c s pc) (hl : Links c pc p level old new pc') :
    Known s p ∧ Known s new ∧ Ok c s pc' ∧ pc'.private = none ∧ old.deleted = false := by
  cases hl with
  | nonblock => exact ⟨(hok.1.level 0).1, (hok.1.level 0).2.sans, trivial, rfl, rfl⟩
  | mark hnode hdel => exact ⟨(hok.2.next_curr _ hnode).known, (hok.2.level _).2, hok, rfl, hdel⟩
  | unlink hnode => exact ⟨(hok.2.level _).1, (hok.2.level _).2.sans, hok, rfl, rfl⟩
  | raise hnode hdel => exact ⟨(hok.2.next_curr _ hnode).known, (hok.2.level _).2, hok, rfl, hdel⟩
  | attach hnode => exact ⟨(hok.2.level _).1, (hok.2.next_curr _ hnode).known, hok, rfl, rfl⟩

lemma values_ok (hok : Ok c s pc) (hv : Values c pc p old_value new_value pc') :
    Known s p ∧ Ok c s pc' ∧ pc'.private = none := by
  cases hv with
  | revive => exact ⟨hok.1.known, trivial, rfl⟩
  | delete => exact ⟨hok.1.known, trivial, rfl⟩
  | @claim curr =>
    refine ⟨hok.known, unlinkNode_ok hok 10000, ?_⟩
    rw [unlinkNode]
    split_ifs <;> rfl

lemma levels_ok (hok : Ok c s pc) (hv : Levels c pc p old_level new_level pc') :
    Known s p ∧ Ok c s pc' ∧ pc'.private = none := by
  cases hv with
  | @reserve curr =>
    refine ⟨hok.known, ?_, ?_⟩
    · split_ifs with hr
      · exact ⟨hok, hr.2⟩
      · exact hok
    · split_ifs <;> rfl
  | settle hnode => exact ⟨(hok.2.next_curr _ hnode).known, hok.1.1, rfl⟩

end Swaps

lemma looks_private {pc' : Pc A K V} (h : Looks c s t pc pc') : pc'.private = none := by
  cases h with
  | find hf => cases stepFind_finds hf <;> rfl
  | fill hf => cases stepFill_fills hf <;> rfl
  | revived =>
    split_ifs <;> rfl
  | unhelped hpc =>
    rcases hpc with rfl | rfl <;> rfl
  | @helper curr next v =>
    rcases visit_cases c next with hv | hv | hv <;> rw [hv] <;> rfl
  | @remark curr retries f height | @retry curr retries f height =>
    rcases unlinkNode_cases c curr (retries - 1) with hv | hv <;> rw [hv] <;> rfl
  | _ => rfl

lemma Inv.allocate (h : Inv c s) {k : K} {value : V} {curr : Obj A K V} {height : ℕ}
    (hpc : s.pc t = .allocate (.insert k value) curr) (hnew : a ∉ s.allocated) :
    Inv c ({ s with allocated := a :: s.allocated }.put t
      (s.memory.store a (Config.newNode k value height (curr.node.next 0)))
      (.link (.insert k value) curr a height)) := by
  have hcurr : Sound s curr := by
    have hok := h.pc t
    rw [hpc] at hok
    exact hok
  have hempty := h.heap.unwritten a hnew
  have hunlinked : a ∉ s.linked := fun ha => hnew (h.heap.linked ha)
  generalize hn : Config.newNode k value height (curr.node.next 0) = n
  generalize hs' : { s with allocated := a :: s.allocated }.put t (s.memory.store a n)
    (.link (.insert k value) curr a height) = s'
  have hlog : ∀ b, b ≠ a → s'.memory.log b = s.memory.log b := by
    intro b hb
    subst hs'
    exact store_other hb
  have hself : s'.memory.log a = [n] := by
    subst hs'
    exact store_self.trans (congrArg (n :: ·) hempty)
  have hlinked : s'.linked = s.linked := by
    subst hs'
    rfl
  have hallocated : s'.allocated = a :: s.allocated := by
    subst hs'
    rfl
  have hrequeued : s'.requeued = s.requeued := by
    subst hs'
    rfl
  have hg : Grows s s' := by
    refine ⟨by rw [hlinked]; exact List.Subset.refl _, fun b => ?_⟩
    by_cases hb : b = a
    · rw [hb, hempty]
      exact List.nil_subset _
    · rw [hlog b hb]
      exact List.Subset.refl _
  have hheap : Heap c s' := by
    constructor
    · exact hg.linked h.heap.root
    · rw [hlinked, hallocated]
      exact List.Subset.trans h.heap.linked (List.subset_cons_self _ _)
    · rw [hrequeued, hallocated]
      exact List.Subset.trans h.heap.requeued (List.subset_cons_self _ _)
    · rw [hrequeued, hlinked]
      exact h.heap.disjoint
    · rw [hlinked]
      exact h.heap.linked_nodup
    · rw [hrequeued]
      exact h.heap.requeued_nodup
    · intro b hb
      by_cases hba : b = a
      · rw [hba, hself]
        exact List.cons_ne_nil _ _
      · rw [hlog b hba]
        rw [hallocated] at hb
        exact h.heap.written b ((List.mem_cons.mp hb).resolve_left hba)
    · intro b hb
      rw [hallocated] at hb
      rw [hlog b fun hba => hb (by rw [hba]; exact List.mem_cons_self)]
      exact h.heap.unwritten b fun hm => hb (List.mem_cons_of_mem _ hm)
    · intro b x hx y hy
      by_cases hba : b = a
      · rw [hba, hself, List.mem_singleton] at hx hy
        rw [hx, hy]
        exact ⟨rfl, rfl⟩
      · rw [hlog b hba] at hx hy
        exact h.heap.same b x hx y hy
    · intro b x hx level
      by_cases hba : b = a
      · rw [hba, hself, List.mem_singleton] at hx
        subst hx
        subst hn
        simp only [Config.newNode]
        by_cases hzero : level = 0
        · subst hzero
          rw [Function.update_self]
          exact (hcurr.next 0).grows hg
        · rw [Function.update_of_ne hzero]
          exact Known.null
      · rw [hlog b hba] at hx
        exact (h.heap.next b x hx level).grows hg
  have hothers : ∀ op b, b ≠ a → Private s op b → Private s' op b := by
    intro op b hb hp
    apply hp.of_eq
    · rw [hallocated]
      exact List.subset_cons_self _ _
    · rw [hlinked]
      exact hp.unlinked
    · rw [hrequeued]
      exact hp.kept
    · exact hlog b hb
  have hpcs : s'.pc = Function.update s.pc t (.link (.insert k value) curr a height) := by
    subst hs'
    rfl
  have hpriv : Private s' (.insert k value) a := by
    constructor
    · rw [hallocated]
      exact List.mem_cons_self
    · rwa [hlinked]
    · rw [hrequeued]
      exact fun ha => hnew (h.heap.requeued ha)
    · refine ⟨k, value, height, curr.node.next 0, rfl, ?_⟩
      rw [hself, ← hn]
  refine h.change hheap hg hpcs ⟨hcurr.grows hg, hpriv⟩ (fun u _ op b _ hp => hothers op b ?_ hp) fun b hb => ?_
  · rintro rfl
    exact hnew hp.allocated
  · cases hb
    exact .inr hnew

lemma Inv.link (h : Inv c s) {curr : Obj A K V} {new_node : A} {height : ℕ} {ret : Option V} {cached : Bool}
    (hpc : s.pc t = .link op curr new_node height) (ha : curr.remote_origin.address = some a)
    (hl : s.memory.log a = n :: ns) : Inv c ({ s with linked := new_node :: s.linked }.put t
      (s.memory.store a (n.setNext 0 ⟨some new_node, cached, false⟩)) (.done op ret)) := by
  have hok := h.pc t
  rw [hpc] at hok
  obtain ⟨hcurr, hpriv⟩ := hok
  have hmem : a ∈ s.linked := hcurr.known a ha
  generalize hs' : { s with linked := new_node :: s.linked }.put t
    (s.memory.store a (n.setNext 0 ⟨some new_node, cached, false⟩)) (.done op ret) = s'
  have hlinked : s'.linked = new_node :: s.linked := by
    subst hs'
    rfl
  have hsub : s.linked ⊆ s'.linked := by
    rw [hlinked]
    exact List.subset_cons_self _ _
  have hnew : s'.linked ⊆ s.allocated ∧ (∀ a ∈ s.requeued, a ∉ s'.linked) ∧ s'.linked.Nodup := by
    rw [hlinked]
    refine ⟨List.cons_subset.mpr ⟨hpriv.allocated, h.heap.linked⟩, fun b hb hbl => ?_,
      List.nodup_cons.mpr ⟨hpriv.unlinked, h.heap.linked_nodup⟩⟩
    rcases List.mem_cons.mp hbl with rfl | hbl
    · exact hpriv.kept hb
    · exact h.heap.disjoint b hb hbl
  have hnext : ∀ level, Known s' ((n.setNext 0 ⟨some new_node, cached, false⟩).next level) := by
    intro level
    simp only [Node.setNext]
    by_cases hzero : level = 0
    · subst hzero
      rw [Function.update_self]
      intro b hb
      cases hb
      rw [hlinked]
      exact List.mem_cons_self
    · rw [Function.update_of_ne hzero]
      intro b hb
      exact hsub (h.heap.next a n (h.head_mem hl) level b hb)
  obtain ⟨hheap, hg⟩ : Heap c s' ∧ Grows s s' := by
    apply Heap.store h hmem hl
    · rw [← hs']
      rfl
    · rw [← hs']
      rfl
    · rw [← hs']
      rfl
    · exact hsub
    · exact hnew
    · exact ⟨rfl, rfl⟩
    · exact hnext
  have hpcs : s'.pc = Function.update s.pc t (.done op ret) := by
    subst hs'
    rfl
  refine h.change hheap hg hpcs trivial (fun u hu op' b hb hp => ?_) fun b hb => ?_
  · apply hp.of_eq
    · rw [← hs']
      exact List.Subset.refl _
    · rw [hlinked]
      intro hbl
      rcases List.mem_cons.mp hbl with rfl | hbl
      · exact hu (h.apart hb (by rw [hpc]; rfl))
      · exact hp.unlinked hbl
    · rw [← hs']
      exact hp.kept
    · rw [← hs']
      apply store_other
      rintro rfl
      exact hp.unlinked hmem
  · cases hb

lemma Inv.requeue (h : Inv c s) {curr : Obj A K V} {new_node : A} {height : ℕ}
    (hpc : s.pc t = .link op curr new_node height) :
    Inv c ({ s with requeued := new_node :: s.requeued }.setPc t (.findRoot op)) := by
  have hok := h.pc t
  rw [hpc] at hok
  obtain ⟨-, hpriv⟩ := hok
  generalize hs' : { s with requeued := new_node :: s.requeued }.setPc t (.findRoot op) = s'
  have hg : Grows s s' := by
    rw [← hs']
    exact .of_eq rfl rfl
  have hheap : Heap c s' := by
    rw [← hs']
    refine ⟨h.heap.root, h.heap.linked, List.cons_subset.mpr ⟨hpriv.allocated, h.heap.requeued⟩, fun b hb => ?_,
      h.heap.linked_nodup, List.nodup_cons.mpr ⟨hpriv.kept, h.heap.requeued_nodup⟩, h.heap.written,
      h.heap.unwritten, h.heap.same, h.heap.next⟩
    rcases List.mem_cons.mp hb with rfl | hb
    · exact hpriv.unlinked
    · exact h.heap.disjoint b hb
  have hpcs : s'.pc = Function.update s.pc t (.findRoot op) := by
    subst hs'
    rfl
  refine h.change hheap hg hpcs trivial (fun u hu op' b hb hp => ?_) fun b hb => ?_
  · rw [← hs']
    have hkept : b ∉ new_node :: s.requeued := by
      intro hbr
      rcases List.mem_cons.mp hbr with rfl | hbr
      · exact hu (h.apart hb (by rw [hpc]; rfl))
      · exact hp.kept hbr
    exact hp.of_eq (List.Subset.refl _) hp.unlinked hkept rfl
  · cases hb

theorem Inv.step (h : Inv c s) {x : Act A K V T} (hs : Step c s x s') : Inv c s' := by
  cases hs with
  | @call t op hpc => exact h.stay (t := t) rfl rfl rfl rfl rfl trivial fun a ha => by cases ha
  | @looks t v pc hl =>
    refine h.stay (t := t) rfl rfl rfl rfl rfl (h.looks (h.pc t) hl) fun a ha => ?_
    rw [looks_private hl] at ha
    cases ha
  | @links t v p a n ns level old new pc hl ha hn hold =>
    obtain ⟨hp, hnew, hok, hpriv, -⟩ := links_ok (h.pc t) hl
    refine h.store (hp a ha) hn ⟨rfl, rfl⟩ (fun level' => ?_) hok fun b hb => ?_
    · simp only [Node.setNext]
      by_cases hlevel : level' = level
      · rw [hlevel, Function.update_self]
        exact hnew
      · rw [Function.update_of_ne hlevel]
        exact h.heap.next a n (h.head_mem hn) level'
    · rw [hpriv] at hb
      cases hb
  | @values t v p a n ns old new pc hv ha hn hold =>
    obtain ⟨hp, hok, hpriv⟩ := values_ok (h.pc t) hv
    refine h.store (hp a ha) hn ⟨rfl, rfl⟩ (h.heap.next a n (h.head_mem hn)) hok fun b hb => ?_
    rw [hpriv] at hb
    cases hb
  | @levels t v p a n ns old new pc hv ha hn hold =>
    obtain ⟨hp, hok, hpriv⟩ := levels_ok (h.pc t) hv
    refine h.store (hp a ha) hn ⟨rfl, rfl⟩ (h.heap.next a n (h.head_mem hn)) hok fun b hb => ?_
    rw [hpriv] at hb
    cases hb
  | allocate hpc hnew _ _ => exact h.allocate hpc hnew
  | link hpc ha hn _ => exact h.link hpc ha hn
  | requeue hpc => exact h.requeue hpc
  | @retire t v curr a next hpc ha hr =>
    have hok := h.pc t
    rw [hpc] at hok
    exact h.stay (t := t) rfl rfl rfl rfl rfl (h.read (Sound.known hok) hr) fun b hb => by cases hb
  | @finish t op ret hpc => exact h.stay (t := t) rfl rfl rfl rfl rfl trivial fun a ha => by cases ha

lemma Inv.initial : Inv c (initial c) where
  heap := by
    have hlog : ∀ a, ∀ x ∈ (Rdmask.initial c).memory.log a, a = c.root ∧ x = c.root_node := by
      intro a x hx
      by_cases ha : a = c.root
      · subst ha
        simp only [Rdmask.initial, Function.update_self, List.mem_singleton] at hx
        exact ⟨rfl, hx⟩
      · simp only [Rdmask.initial, Function.update_of_ne ha] at hx
        cases hx
    refine ⟨List.mem_cons_self, List.Subset.refl _, List.nil_subset _, fun a ha => ?_,
      List.nodup_cons.mpr ⟨List.not_mem_nil, List.nodup_nil⟩,
      List.nodup_nil, fun a ha => ?_, fun a ha => ?_, fun a x hx y hy => ?_, fun a x hx level => ?_⟩
    · cases ha
    · simp only [Rdmask.initial, List.mem_singleton] at ha
      subst ha
      simp only [Rdmask.initial, Function.update_self]
      exact List.cons_ne_nil _ _
    · simp only [Rdmask.initial, List.mem_singleton] at ha
      simp only [Rdmask.initial, Function.update_of_ne ha]
    · rw [(hlog a x hx).2, (hlog a y hy).2]
      exact ⟨rfl, rfl⟩
    · rw [(hlog a x hx).2]
      exact Known.null
  pc t := by
    simp only [Rdmask.initial]
    split_ifs <;> trivial
  apart {t u a} ht _ := by
    simp only [Rdmask.initial] at ht
    split_ifs at ht <;> cases ht

lemma inv_of_reachable (h : (machine c).Reachable s) : Inv c s := by
  apply h.invariant
  · rintro s rfl
    exact .initial
  · exact fun s a s' hi hs => hi.step (step_cases hs)

end Looks

end ObjectCache.Rdmask
