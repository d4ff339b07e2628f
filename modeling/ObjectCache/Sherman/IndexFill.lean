import ObjectCache.Sherman.IndexRoom
import Mathlib

/-! An `IndexCache` to which pages with disjoint ranges are added, within its capacity. -/

set_option linter.unusedSectionVars false

namespace ObjectCache.LockFree

open Lib

variable {A V T : Type} [DecidableEq A] [DecidableEq T] {c : Config A} {r : Trace c V T} {j k : ℕ} {n : A}

lemma linked_later (hn : n ∈ r.linked j) (hjk : j ≤ k) (hk : k ≤ r.len) :
    n ∈ r.linked k ∧ (r.memory k).node n = (r.memory j).node n := by
  induction k, hjk using Nat.le_induction with
  | base => exact ⟨hn, rfl⟩
  | succ k _ ih =>
    obtain ⟨hn, hnode⟩ := ih (by omega)
    have hc := carries_of_run r (show k < r.len by omega)
    exact ⟨linked_mono hn, (hc.same hn).trans hnode⟩

lemma linked_of_links_later (hl : links (r.state j) (r.act j) = some n) (hjk : j < k) (hk : k ≤ r.len) :
    n ∈ r.linked k ∧ (r.memory k).node n = (r.memory j).node n := by
  have hj : j < r.len := by omega
  obtain ⟨hnew, -⟩ := (inv_of_run r j hj.le).links_cases (r.next j hj) hl
  obtain ⟨hn, hnode⟩ := linked_later (linked_of_links hl j.lt_succ_self) hjk hk
  exact ⟨hn, hnode.trans ((carries_of_run r hj).node n hnew.own.allocated)⟩

end ObjectCache.LockFree

namespace ObjectCache.Sherman.IndexCache

open Lib LockFree

variable {A B T : Type} [DecidableEq A] [DecidableEq T] {c : Config A} {s s' : State A B T} {a : Act A B T}
  {t u : T} {r r' : Trace c.list (BNode B) T} {n : A} {p q : BNode B} {ps : List (BNode B)} {b : Bool}

/-- Neither a search nor an invalidation starts. -/
def Act.fills : Act A B T → Bool
  | .search _ _ | .invalidate _ _ => false
  | _ => true

/-- The page whose addition starts. -/
def Act.pages : Act A B T → List (BNode B)
  | .add _ page => [page]
  | _ => []

/-- The pages whose addition has started, by any threads and in any order. -/
inductive Adds (c : Config A) : State A B T → List (BNode B) → Prop
  | initial : Adds c (initial c) []
  | step {s s' : State A B T} {ps : List (BNode B)} {a : Act A B T} : Adds c s ps →
      a.fills = true → step c s a = some s' → Adds c s' (a.pages ++ ps)

/-- The keys between the fences. -/
def range (page : BNode B) : Set ℤ := Set.Ioc page.key_low page.key_high

def Apart (ps : List (BNode B)) : Prop := ps.Pairwise fun p q => Disjoint (range p) (range q)

/-- The call that adds the page. -/
def insertOf (page : BNode B) : Op (BNode B) := .insert page.key_low page.key_high (some page)

/-- The call that has linked the node. -/
def opOf (node : Node (BNode B)) : Op (BNode B) := .insert node.key_low node.key_high node.value

lemma insertOf_inj (h : insertOf p = insertOf q) : p = q := by
  injection h with _ _ h
  exact Option.some.inj h

lemma eq_of_opOf {node : Node (BNode B)} (h : opOf node = insertOf p) :
    node.key_low = p.key_low ∧ node.key_high = p.key_high ∧ node.value = some p := by
  injection h with hlow hhigh hvalue
  exact ⟨hlow, hhigh, hvalue⟩

/-- Pages with a key in common are the same. -/
lemma Apart.eq (h : Apart ps) (hp : p ∈ ps) (hq : q ∈ ps) {k : ℤ} (hkp : k ∈ range p) (hkq : k ∈ range q) :
    p = q := by
  by_contra hne
  have hsymm : Std.Symm fun p q : BNode B => Disjoint (range p) (range q) := ⟨fun _ _ hd => hd.symm⟩
  exact Set.disjoint_left.mp (List.Pairwise.forall h hp hq hne) hkp hkq

/-- Where a thread stands as long as it has only added pages and there was room. -/
def Pc.adds : Pc B → Bool
  | .idle | .insert | .countAdd | .takeRoom | .done _ => true
  | _ => false

/-- The addition has not yet taken its place from the room. -/
def Pc.adding : Pc B → ℤ
  | .insert | .countAdd | .takeRoom => 1
  | _ => 0

/-- Nothing but additions so far. -/
structure Adding (s : State A B T) : Prop where
  pcs : ∀ t, (s.pc t).adds = true
  gets : ∀ t, s.skiplist.get t = .idle
  accesses : ∀ n, s.skiplist.accesses n = 0

lemma accesses_of_step_list {V : Type} {d : LockFree.Config A} {l l' : Get.State A V T}
    {x : LockFree.Act A V T} (h : Get.step d l (.list x) = some l') (h0 : ∀ n, l.accesses n = 0) :
    l'.get = l.get ∧ ∀ n, l'.accesses n = 0 := by
  simp only [Get.step] at h
  split at h
  · cases x with
    | allocate t newNode topLevel =>
      cases h
      refine ⟨rfl, fun n => ?_⟩
      by_cases hn : n = newNode
      · rw [hn]
        exact Function.update_self ..
      · exact (Function.update_of_ne hn ..).trans (h0 n)
    | call | next | ret =>
      cases h
      exact ⟨rfl, h0⟩
  · cases h

lemma Adding.put (h : Adding s) {pc : Pc B} (hpc : s'.pc = Function.update s.pc t pc) (ha : pc.adds = true)
    (hgets : s'.skiplist.get = s.skiplist.get) (hacc : ∀ n, s'.skiplist.accesses n = 0) : Adding s' := by
  refine ⟨fun u => ?_, fun u => ?_, hacc⟩
  · rw [hpc]
    by_cases hu : u = t
    · rw [hu, Function.update_self]
      exact ha
    · rw [Function.update_of_ne hu]
      exact h.pcs u
  · rw [hgets]
    exact h.gets u

lemma Adding.not_looks (h : Adding s) {x : Get.Act A (BNode B) T} {pc : Pc B} (ha : a.fills = true) :
    ¬ Looks c s t a x pc := by
  intro hlook
  have hadds := h.pcs t
  cases hlook with
  | search => cases ha
  | choose hpc | picked hpc | searched hpc =>
    rw [hpc] at hadds
    cases hadds

lemma Adding.calls (h : Adding s) {op : Op (BNode B)} {pc : Pc B} (ha : a.fills = true)
    (hcall : Calls s t a op pc) : ∃ page, a = .add t page ∧ op = insertOf page ∧ pc = .insert := by
  have hadds := h.pcs t
  cases hcall with
  | @add page => exact ⟨page, rfl, rfl, rfl⟩
  | invalidate => cases ha
  | evict hpc =>
    rw [hpc] at hadds
    cases hadds

lemma Adding.step (h : Adding s) (ha : a.fills = true) (hs : Step c s a s')
    (hroom : ∀ t, s.pc t = .takeRoom → 0 < s.skiplist_room_entries) : Adding s' := by
  have hpcs := h.pcs
  cases hs with
  | @call _ t op pc skiplist hcall hstep =>
    obtain ⟨page, -, -, rfl⟩ := h.calls ha hcall
    obtain ⟨hget, hacc⟩ := accesses_of_step_list hstep h.accesses
    exact h.put rfl rfl hget hacc
  | @inner x skiplist hi hstep =>
    cases x with
    | list x =>
      obtain ⟨hget, hacc⟩ := accesses_of_step_list hstep h.accesses
      exact ⟨h.pcs, fun u => (congrFun hget u).trans (h.gets u), hacc⟩
    | get u key counts => cases hi
    | ret u => cases hi
    | next u => simp [Get.step, h.gets u, Get.advance] at hstep
  | @answer t ret pc skiplist hdone hanswer hstep =>
    obtain ⟨hget, hacc⟩ := accesses_of_step_list hstep h.accesses
    cases hanswer with
    | inserted | refused => exact h.put rfl rfl hget hacc
    | removed hpc | missed hpc =>
      have hadds := hpcs t
      rw [hpc] at hadds
      cases hadds
  | look hlook => exact absurd hlook (h.not_looks ha)
  | @countAdd t hpc => exact h.put rfl rfl rfl h.accesses
  | @takeRoom t hpc =>
    have hpos := hroom t hpc
    refine h.put (t := t) rfl ?_ rfl h.accesses
    rw [if_neg (by omega)]
    rfl
  | @giveBack t evicts hpc =>
    have hadds := hpcs t
    rw [hpc] at hadds
    cases hadds
  | ret => exact h.put rfl rfl rfl h.accesses

/-! ### The room -/

section Room

variable [Fintype T]

/-- Every page takes one place. -/
def Roomy (c : Config A) (s : State A B T) (ps : List (BNode B)) : Prop :=
  s.skiplist_room_entries + ps.length = c.all_page_cnt + ∑ u, (s.pc u).adding

lemma Roomy.pos (h : Roomy c s ps) (hps : ps.length ≤ c.all_page_cnt) (ht : s.pc t = .takeRoom) :
    0 < s.skiplist_room_entries := by
  have hle : (s.pc t).adding ≤ ∑ u, (s.pc u).adding := by
    refine Finset.single_le_sum (f := fun u => (s.pc u).adding) (fun u _ => ?_) (Finset.mem_univ t)
    cases s.pc u <;> simp [Pc.adding]
  rw [ht] at hle
  have hone : (Pc.takeRoom : Pc B).adding = 1 := rfl
  rw [Roomy] at h
  omega

lemma Roomy.move {qs : List (BNode B)} {pc : Pc B} (h : Roomy c s ps)
    (hpc : s'.pc = Function.update s.pc t pc)
    (hmove : s'.skiplist_room_entries + qs.length - pc.adding =
      s.skiplist_room_entries + ps.length - (s.pc t).adding) : Roomy c s' qs := by
  rw [Roomy] at h ⊢
  have hsum := sum_update Pc.adding s.pc t pc
  rw [hpc, hsum]
  omega

lemma Roomy.step (h : Roomy c s ps) (hadding : Adding s) (ha : a.fills = true) (hs : Step c s a s')
    (hroom : ∀ t, s.pc t = .takeRoom → 0 < s.skiplist_room_entries)
    (hrefused : ∀ t, s.pc t = .insert → (s.skiplist.list.thread t).pc ≠ .done (.bool false)) :
    Roomy c s' (a.pages ++ ps) := by
  have hpcs := hadding.pcs
  cases hs with
  | @call _ t op pc skiplist hcall hstep =>
    cases hcall with
    | add hpc =>
      apply h.move rfl
      rw [hpc]
      simp [State.put, Act.pages, Pc.adding]
      omega
    | invalidate => cases ha
    | evict hpc =>
      have hadds := hpcs t
      rw [hpc] at hadds
      cases hadds
  | @inner x skiplist hi hstep => exact h
  | @answer t ret pc skiplist hdone hanswer hstep =>
    cases hanswer with
    | inserted hpc =>
      apply h.move rfl
      rw [hpc]
      rfl
    | refused hpc => exact absurd hdone (hrefused t hpc)
    | removed hpc | missed hpc =>
      have hadds := hpcs t
      rw [hpc] at hadds
      cases hadds
  | look hlook => exact absurd hlook (hadding.not_looks ha)
  | @countAdd t hpc =>
    apply h.move rfl
    rw [hpc]
    rfl
  | @takeRoom t hpc =>
    have hpos := hroom t hpc
    apply h.move rfl
    rw [hpc, if_neg (by omega)]
    simp only [Act.pages, List.nil_append, Pc.adding]
    omega
  | @giveBack t evicts hpc =>
    have hadds := hpcs t
    rw [hpc] at hadds
    cases hadds
  | @ret t ret hpc =>
    apply h.move rfl
    rw [hpc]
    rfl

end Room

/-! ### The list -/

/-- What is behind the additions so far. -/
structure Filled (s : State A B T) (ps : List (BNode B)) (r : Trace c.list (BNode B) T) : Prop extends
    Follows s r where
  ops : Ops (fun op => ∀ lb ub, op ≠ .remove lb ub) r
  legal : ∀ p ∈ ps, (insertOf p).Legal
  page : ∀ n ∈ r.linked r.len, n ≠ c.list.head → n ≠ c.list.tail →
    ∃ p ∈ ps, opOf (s.memory.node n) = insertOf p
  pending : ∀ t, s.pc t = .insert → ∃ p ∈ ps, (s.skiplist.list.thread t).op = insertOf p
  single : ∀ t u, s.pc t = .insert → s.pc u = .insert →
    (s.skiplist.list.thread t).op = (s.skiplist.list.thread u).op → t = u
  fresh : ∀ t, s.pc t = .insert → NoLink r t r.len → ∀ n ∈ r.linked r.len,
    (s.skiplist.list.thread t).op ≠ opOf (s.memory.node n)
  kept : ∀ p ∈ ps, (∃ n ∈ r.linked r.len, opOf (s.memory.node n) = insertOf p) ∨
    ∃ t, s.pc t = .insert ∧ (s.skiplist.list.thread t).op = insertOf p

lemma Follows.busy (h : Follows s r) (hadding : Adding s) (ht : (s.skiplist.list.thread t).pc ≠ .idle) :
    s.pc t = .insert := by
  have hagrees := h.agrees t
  have hadds := hadding.pcs t
  cases hpc : s.pc t with
  | insert => rfl
  | remove evicts =>
    rw [hpc] at hadds
    cases hadds
  | _ =>
    rw [hpc] at hagrees
    exact absurd hagrees ht

/-- A thread leaves its insertion with an answer, and enters none. -/
lemma Step.moves (hs : Step c s a s') (ha : a.pages = []) : s'.pc = s.pc ∨ ∃ t pc,
    s'.pc = Function.update s.pc t pc ∧ pc ≠ .insert ∧
      (s.pc t = .insert → ∃ b, (s.skiplist.list.thread t).pc = .done (.bool b)) := by
  cases hs with
  | @call _ t op pc skiplist hcall hstep =>
    right
    cases hcall with
    | add => cases ha
    | invalidate hpc | evict hpc => exact ⟨t, _, rfl, by simp, by simp [hpc]⟩
  | inner => exact .inl rfl
  | @answer t ret pc skiplist hdone hanswer hstep =>
    right
    refine ⟨t, pc, rfl, ?_, fun ht => ?_⟩
    · cases hanswer <;> simp [removed]
    · cases hanswer with
      | inserted | refused => exact ⟨_, hdone⟩
      | removed hpc | missed hpc =>
        rw [hpc] at ht
        cases ht
  | @look _ x t pc skiplist hlook hstep =>
    right
    cases hlook with
    | search hpc | choose hpc | searched hpc => exact ⟨t, _, rfl, by simp, by simp [hpc]⟩
    | @picked e1 result accesses hpc =>
      refine ⟨t, _, rfl, ?_, by simp [hpc]⟩
      rcases picked_cases e1 result accesses with ⟨e, he⟩ | ⟨victim, he⟩ <;> rw [he] <;> simp
  | @countAdd t hpc => exact .inr ⟨t, _, rfl, by simp, by simp [hpc]⟩
  | @takeRoom t hpc => exact .inr ⟨t, _, rfl, by split_ifs <;> simp, by simp [hpc]⟩
  | @giveBack t evicts hpc => exact .inr ⟨t, _, rfl, by simp [removed], by simp [hpc]⟩
  | @ret t ret hpc => exact .inr ⟨t, _, rfl, by simp, by simp [hpc]⟩

lemma Grows.advances (h : Grows r r' s a s') (t : T) : ∃ x, Advances r r' x ∧
    (∀ u op, x = .call u op → ∃ pc, Calls s u a op pc) ∧
    ∀ P : Op (BNode B) → Prop, Ops P r → (∀ u, P ((r'.state r'.len).thread u).op) → Ops P r' := by
  rcases h with ⟨-, rfl, -⟩ | ⟨x, hg⟩
  · refine ⟨.ret t, ⟨fun n hn => .inl hn, fun n hn => ⟨hn, rfl⟩, fun _ _ => rfl, fun _ _ => id⟩,
      by simp, fun P hP _ => hP⟩
  · refine ⟨x, hg.toExtends.advances, fun u op hx => ?_, fun P hP hlast => ?_⟩
    · obtain ⟨pc, hcall, -⟩ := hg.calls u op hx
      exact ⟨pc, hcall⟩
    · apply hg.toExtends.ops hP rfl
      have hop := hlast x.thread
      rwa [hg.len, hg.final] at hop

section Links

variable {m : Memory A (BNode B)} {linked : Set A}

lemma not_sentinel (h : Links c.list linked m) (hop : opOf (m.node n) = insertOf p) :
    n ≠ c.list.head ∧ n ≠ c.list.tail := by
  obtain ⟨-, -, hvalue⟩ := eq_of_opOf hop
  refine ⟨?_, ?_⟩
  · rintro rfl
    rw [h.head_node] at hvalue
    cases hvalue
  · rintro rfl
    rw [h.tail_node] at hvalue
    cases hvalue

/-- A node that overlaps a legal range is none of the sentinels. -/
lemma not_sentinel_of_equal (h : Links c.list linked m) (hp : (insertOf p).Legal)
    (heq : (m.node n).is_equal p.key_low p.key_high = true) : n ≠ c.list.head ∧ n ≠ c.list.tail := by
  have hlow : LockFree.INT_MIN ≤ p.key_low := hp.low
  have hhigh : p.key_high ≤ LockFree.INT_MAX := hp.high
  rw [is_equal_iff] at heq
  refine ⟨?_, ?_⟩
  · rintro rfl
    rw [h.head_node] at heq
    exact absurd heq.2 (not_lt.mpr hlow)
  · rintro rfl
    rw [h.tail_node] at heq
    exact absurd heq.1 (not_lt.mpr hhigh)

end Links

namespace Filled

variable (h : Filled s ps r)

include h

lemma links : Links c.list (r.linked r.len) s.memory := by
  have hlinks := (inv_of_run r r.len le_rfl).shape.toLinks
  rwa [Trace.memory, h.follows] at hlinks

lemma node_later {k : ℕ} (hk : k ≤ r.len) (hn : n ∈ r.linked k) :
    n ∈ r.linked r.len ∧ s.memory.node n = (r.memory k).node n := by
  have hlater := linked_later hn hk le_rfl
  rwa [Trace.memory, h.follows] at hlater

/-- An addition that has come back has linked its page. -/
lemma answered (hapart : Apart ps) (hpc : s.pc t = .insert)
    (hdone : (s.skiplist.list.thread t).pc = .done (.bool b)) :
    b = true ∧ ∃ n ∈ r.linked r.len, opOf (s.memory.node n) = (s.skiplist.list.thread t).op := by
  obtain ⟨p, hp, hop⟩ := h.pending t hpc
  have hlegal := h.legal p hp
  have hok := (inv_of_run r r.len le_rfl).ok t
  rw [h.follows, hdone] at hok
  have hanswer : Answer r t r.len (s.skiplist.list.thread t).op (.bool b) := hok
  have hfresh := h.fresh t hpc
  rw [hop] at hanswer hfresh ⊢
  rcases hanswer with ⟨hb, -, k, -, hk, -, n, hlinks, hnode, -⟩ | ⟨-, hno, k, -, hk, n, hlive, heq⟩
  · cases hb
    obtain ⟨hn, hsame⟩ := linked_of_links_later hlinks hk le_rfl
    refine ⟨rfl, n, hn, ?_⟩
    rw [State.memory, ← h.follows]
    rw [← hsame] at hnode
    exact hnode.symm
  · exfalso
    have hshape := (inv_of_run r k hk).shape
    obtain ⟨hn, hsame⟩ := h.node_later hk (hlive.mem hshape.toLinks)
    rw [← hsame] at heq
    obtain ⟨hhead, htail⟩ := not_sentinel_of_equal h.links hlegal heq
    obtain ⟨q, hq, hopq⟩ := h.page n hn hhead htail
    obtain ⟨hqlow, hqhigh, -⟩ := eq_of_opOf hopq
    have hqlegal : q.key_low < q.key_high := (h.legal q hq).range _ _ _ rfl
    have hplegal : p.key_low < p.key_high := hlegal.range _ _ _ rfl
    rw [is_equal_iff, hqlow, hqhigh] at heq
    obtain ⟨hqp, hpq⟩ : q.key_low < p.key_high ∧ p.key_low < q.key_high := heq
    have hsame : p = q := by
      rcases le_total p.key_high q.key_high with hle | hle
      · exact hapart.eq hp hq ⟨hplegal, le_rfl⟩ ⟨hqp, hle⟩
      · exact hapart.eq hp hq ⟨hpq, hle⟩ ⟨hqlegal, le_rfl⟩
    rw [hsame] at hfresh
    exact hfresh hno n hn hopq.symm

/-- A step that starts no call. -/
lemma advance {x : LockFree.Act A (BNode B) T} (hadding : Adding s) (hapart : Apart ps) (hf : Follows s' r')
    (hadv : Advances r r' x) (hx : ∀ u, ¬ opens u x)
    (hops : ∀ P : Op (BNode B) → Prop, Ops P r → (∀ u, P ((r'.state r'.len).thread u).op) → Ops P r')
    (hstay : ∀ u, s'.pc u = .insert → s.pc u = .insert)
    (hleave : ∀ u, s.pc u = .insert → s'.pc u = .insert ∨
      ∃ b, (s.skiplist.list.thread u).pc = .done (.bool b)) : Filled s' ps r' := by
  have hop : ∀ u, (s'.skiplist.list.thread u).op = (s.skiplist.list.thread u).op := by
    intro u
    rw [← hf.follows, ← h.follows]
    exact hadv.op u (hx u)
  have hold : ∀ n ∈ r.linked r.len, n ∈ r'.linked r'.len ∧ s'.memory.node n = s.memory.node n := by
    intro n hn
    have hmono := hadv.mono n hn
    rwa [Trace.memory, Trace.memory, h.follows, hf.follows] at hmono
  have hnew : ∀ n ∈ r'.linked r'.len, n ∈ r.linked r.len ∨ s.pc x.thread = .insert ∧
      (s.skiplist.list.thread x.thread).op = opOf (s'.memory.node n) ∧ ¬ NoLink r' x.thread r'.len := by
    intro n hn
    refine (hadv.linked n hn).imp_right ?_
    rintro ⟨hpc, hopn, hlink⟩
    rw [h.follows] at hpc hopn
    rw [Trace.memory, hf.follows] at hopn
    exact ⟨h.busy hadding hpc, hopn, hlink⟩
  refine ⟨hf, hops _ h.ops fun u => ?_, h.legal, fun n hn hhead htail => ?_, fun u hu => ?_, fun u w hu hw => ?_,
    fun u hu hno n hn => ?_, fun p hp => ?_⟩
  · rw [hf.follows, hop u, ← h.follows]
    exact h.ops r.len le_rfl u
  · rcases hnew n hn with hn | ⟨hpc, hopn, -⟩
    · rw [(hold n hn).2]
      exact h.page n hn hhead htail
    · obtain ⟨p, hp, hopp⟩ := h.pending _ hpc
      exact ⟨p, hp, hopn.symm.trans hopp⟩
  · rw [hop u]
    exact h.pending u (hstay u hu)
  · rw [hop u, hop w]
    exact h.single u w (hstay u hu) (hstay w hw)
  · rw [hop u]
    rcases hnew n hn with hn | ⟨hpc, hopn, hlink⟩
    · rw [(hold n hn).2]
      exact h.fresh u (hstay u hu) (hadv.noLink u (hx u) hno) n hn
    · intro hsame
      obtain rfl := h.single u x.thread (hstay u hu) hpc (hsame.trans hopn.symm)
      exact hlink hno
  · have hkept : ∀ n ∈ r.linked r.len, opOf (s.memory.node n) = insertOf p →
        ∃ n ∈ r'.linked r'.len, opOf (s'.memory.node n) = insertOf p := by
      intro n hn hopn
      obtain ⟨hn', hsame⟩ := hold n hn
      exact ⟨n, hn', by rw [hsame, hopn]⟩
    rcases h.kept p hp with ⟨n, hn, hopn⟩ | ⟨u, hu, hopu⟩
    · exact .inl (hkept n hn hopn)
    · rcases hleave u hu with hu' | ⟨b, hdone⟩
      · exact .inr ⟨u, hu', (hop u).trans hopu⟩
      · obtain ⟨-, n, hn, hopn⟩ := h.answered hapart hu hdone
        exact .inl (hkept n hn (hopn.trans hopu))

end Filled

lemma Filled.add (h : Filled s ps r) (hadding : Adding s) (hapart : Apart (p :: ps))
    (hs : Step c s (.add t p) s') : ∃ r' : Trace c.list (BNode B) T, Filled s' (p :: ps) r' := by
  obtain ⟨hdisjoint, -⟩ := List.pairwise_cons.mp hapart
  cases hs with
  | look hlook => cases hlook
  | @call _ _ op pc skiplist hcall hstep =>
    cases hcall with
    | add hpc =>
      obtain ⟨hlist, -⟩ := Get.list_of_step_list hstep
      have hlegal : (insertOf p).Legal := by
        have hcalled := LockFree.step_cases hlist
        generalize skiplist.list = list at hcalled
        cases hcalled with
        | call _ hlegal => exact hlegal
      obtain ⟨r', hr', hstored, hop, hmemory, hothers⟩ := h.call (.add hpc) hlist
      have hf := h.called (.add hpc) hr' hstored hop hothers
      have hput : (s.put skiplist t .insert).memory = s.memory := hmemory
      have hadv := hr'.advances
      have hlinked : r'.linked r'.len = r.linked r.len := by
        rw [hr'.len, linked_succ_none (by rw [hr'.last]; rfl), hr'.linked]
      have hnew : p ∉ ps := by
        intro hp
        have hrange : p.key_low < p.key_high := hlegal.range _ _ _ rfl
        exact Set.disjoint_left.mp (hdisjoint p hp) ⟨hrange, le_rfl⟩ ⟨hrange, le_rfl⟩
      have hinsert : ∀ u, (s.put skiplist t .insert).pc u = .insert → u = t ∨ u ≠ t ∧ s.pc u = .insert := by
        intro u hu
        by_cases hut : u = t
        · exact .inl hut
        · simp only [State.put, Function.update_of_ne hut] at hu
          exact .inr ⟨hut, hu⟩
      have hold : ∀ u, s.pc u = .insert → (skiplist.list.thread u).op ≠ insertOf p := by
        intro u hu
        have hut : u ≠ t := by
          rintro rfl
          rw [hpc] at hu
          cases hu
        obtain ⟨q, hq, hopq⟩ := h.pending u hu
        rw [hothers u hut, hopq]
        intro hsame
        exact hnew (insertOf_inj hsame ▸ hq)
      refine ⟨r', hf, ?_, ?_, fun n hn hhead htail => ?_, fun u hu => ?_, fun u w hu hw hsame => ?_,
        fun u hu hno n hn => ?_, fun q hq => ?_⟩
      · apply hr'.ops h.ops rfl
        intro lb ub
        change (skiplist.list.thread t).op ≠ _
        rw [hop]
        simp
      · intro q hq
        rcases List.mem_cons.mp hq with rfl | hq
        · exact hlegal
        · exact h.legal q hq
      · rw [hlinked] at hn
        obtain ⟨q, hq, hopq⟩ := h.page n hn hhead htail
        exact ⟨q, List.mem_cons_of_mem _ hq, hput ▸ hopq⟩
      · rcases hinsert u hu with rfl | ⟨hut, hu⟩
        · exact ⟨p, List.mem_cons_self, hop⟩
        · obtain ⟨q, hq, hopq⟩ := h.pending u hu
          exact ⟨q, List.mem_cons_of_mem _ hq, (hothers u hut).symm ▸ hopq⟩
      · simp only [State.put] at hsame
        rcases hinsert u hu with hut | ⟨hut, hu'⟩
        · rcases hinsert w hw with hwt | ⟨-, hw'⟩
          · rw [hut, hwt]
          · rw [hut] at hsame
            exact absurd (hsame.symm.trans hop) (hold w hw')
        · rcases hinsert w hw with hwt | ⟨hwt, hw'⟩
          · rw [hwt] at hsame
            exact absurd (hsame.trans hop) (hold u hu')
          · rw [hothers u hut, hothers w hwt] at hsame
            exact h.single u w hu' hw' hsame
      · rw [hlinked] at hn
        rw [State.memory, State.put, hmemory]
        rcases hinsert u hu with rfl | ⟨hut, hu⟩
        · simp only
          rw [hop]
          intro hsame
          obtain ⟨hhead, htail⟩ := not_sentinel h.links hsame.symm
          obtain ⟨q, hq, hopq⟩ := h.page n hn hhead htail
          exact hnew (insertOf_inj (hsame.trans hopq) ▸ hq)
        · simp only
          rw [hothers u hut]
          exact h.fresh u hu (hadv.noLink u (fun ho => hut ho.symm) hno) n hn
      · rcases List.mem_cons.mp hq with rfl | hq
        · exact .inr ⟨t, Function.update_self .., hop⟩
        · rcases h.kept q hq with ⟨n, hn, hopn⟩ | ⟨u, hu, hopu⟩
          · exact .inl ⟨n, hlinked ▸ hn, hput ▸ hopn⟩
          · have hut : u ≠ t := by
              rintro rfl
              rw [hpc] at hu
              cases hu
            refine .inr ⟨u, ?_, (hothers u hut).symm ▸ hopu⟩
            exact (Function.update_of_ne hut ..).trans hu

lemma Filled.step (h : Filled s ps r) (hadding : Adding s) (ha : a.fills = true)
    (hapart : Apart (a.pages ++ ps)) (hs : Step c s a s') :
    ∃ r' : Trace c.list (BNode B) T, Filled s' (a.pages ++ ps) r' := by
  have hquiet : a.pages = [] → ∃ r' : Trace c.list (BNode B) T, Filled s' ps r' := by
    intro hnone
    obtain ⟨r', hf, hgrows⟩ := follows_step h.toFollows hs
    obtain ⟨x, hadv, hcalls, hops⟩ := hgrows.advances a.thread
    have hx : ∀ u, ¬ opens u x := by
      intro u hu
      cases x with
      | call v op =>
        obtain ⟨pc, hcall⟩ := hcalls v op rfl
        obtain ⟨p, rfl, -⟩ := hadding.calls ha hcall
        cases hnone
      | _ => cases hu
    rw [hnone] at hapart
    rcases hs.moves hnone with hpc | ⟨t, pc, hpc, hne, hdone⟩
    · exact ⟨r', h.advance hadding hapart hf hadv hx hops (fun u hu => hpc ▸ hu) fun u hu => .inl (hpc ▸ hu)⟩
    · refine ⟨r', h.advance hadding hapart hf hadv hx hops (fun u hu => ?_) fun u hu => ?_⟩
      · rw [hpc] at hu
        by_cases hut : u = t
        · rw [hut, Function.update_self] at hu
          exact absurd hu hne
        · rwa [Function.update_of_ne hut] at hu
      · by_cases hut : u = t
        · rw [hut] at hu ⊢
          exact .inr (hdone hu)
        · rw [hpc, Function.update_of_ne hut]
          exact .inl hu
  cases a with
  | add t p => exact h.add hadding hapart hs
  | _ => exact hquiet rfl

lemma filled_initial (t : T) : ∃ r : Trace c.list (BNode B) T, Filled (initial c) [] r := by
  obtain ⟨r, hlen, hr⟩ := follows_initial (c := c) (B := B) t
  refine ⟨r, hr, fun k hk u lb ub => ?_, by simp, fun n hn hhead htail => ?_, fun u hu => ?_, fun u w hu => ?_,
    fun u hu => ?_, by simp⟩
  · obtain rfl : k = r.len := by omega
    rw [hr.follows]
    simp [initial, Get.initial, LockFree.initial]
  · rw [hlen] at hn
    rcases hn with rfl | rfl
    · exact absurd rfl hhead
    · exact absurd rfl htail
  · cases hu
  · cases hu
  · cases hu

lemma filled_of_adds [Fintype T] (t : T) (h : Adds c s ps) (hlen : ps.length ≤ c.all_page_cnt)
    (hapart : Apart ps) : Adding s ∧ Roomy c s ps ∧ ∃ r : Trace c.list (BNode B) T, Filled s ps r := by
  induction h with
  | initial =>
    refine ⟨⟨fun _ => rfl, fun _ => rfl, fun _ => rfl⟩, ?_, filled_initial t⟩
    simp [Roomy, IndexCache.initial, Pc.adding]
  | @step s s' ps a _ ha hs ih =>
    rw [List.length_append, Nat.cast_add] at hlen
    obtain ⟨hadding, hroomy, r, hfilled⟩ := ih (by omega) (List.pairwise_append.mp hapart).2.1
    have hstep := step_cases hs
    have hpos : ∀ u, s.pc u = .takeRoom → 0 < s.skiplist_room_entries := by
      intro u hu
      exact hroomy.pos (by omega) hu
    have hrefused : ∀ u, s.pc u = .insert → (s.skiplist.list.thread u).pc ≠ .done (.bool false) := by
      intro u hu hdone
      obtain ⟨hb, -⟩ := hfilled.answered (List.pairwise_append.mp hapart).2.1 hu hdone
      cases hb
    exact ⟨hadding.step ha hstep hpos, hroomy.step hadding ha hstep hpos hrefused,
      hfilled.step hadding ha hapart hstep⟩

end ObjectCache.Sherman.IndexCache
