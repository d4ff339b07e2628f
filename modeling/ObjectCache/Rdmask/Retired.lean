import ObjectCache.Rdmask.Sound

/-! What no step of `RdmaSkipList` takes back at a node, and that every node is given back at most once. -/

set_option linter.unusedSectionVars false

namespace ObjectCache.Rdmask

open Lib

variable {A K V T : Type}

/-! ### What is final -/

/-- A node and what it has become. -/
structure Node.Later (c : Config A K V T) (n n' : Node A K V) : Prop where
  key : n'.key = n.key
  height : n'.height = n.height
  unlinked : n.value = c.unlink_sentinel → n'.value = c.unlink_sentinel
  reserved : n.link_level ≠ 0 → n'.link_level ≠ 0
  raised : n.link_level ≠ 0 → n.link_level ≠ 1 → n'.link_level = n.link_level
  deleted : ∀ level, (n.next level).deleted = true → n'.next level = n.next level

/-- Every node that has been written has since become what it may. -/
structure State.Later (c : Config A K V T) (s s' : State A K V T) : Prop where
  linked : s.linked ⊆ s'.linked
  retired : s.retired ⊆ s'.retired
  node : ∀ {a n ns}, s.memory.log a = n :: ns → ∃ n' ns', s'.memory.log a = n' :: ns' ∧ n.Later c n'

variable {c : Config A K V T} {s s' s'' : State A K V T} {t u : T} {a b : A} {n n' n'' : Node A K V}
  {ns : List (Node A K V)} {pc pc' : Pc A K V}

lemma Node.Later.refl : n.Later c n := ⟨rfl, rfl, id, id, fun _ _ => rfl, fun _ _ => rfl⟩

lemma Node.Later.trans (h : n.Later c n') (h' : n'.Later c n'') : n.Later c n'' where
  key := h'.key.trans h.key
  height := h'.height.trans h.height
  unlinked hu := h'.unlinked (h.unlinked hu)
  reserved hr := h'.reserved (h.reserved hr)
  raised hzero hone := by
    have heq := h.raised hzero hone
    rw [← heq] at hone
    exact (h'.raised (h.reserved hzero) hone).trans heq
  deleted level hd := by
    have heq := h.deleted level hd
    rw [← heq] at hd
    exact (h'.deleted level hd).trans heq

lemma State.Later.refl : s.Later c s :=
  ⟨List.Subset.refl _, List.Subset.refl _, fun hl => ⟨_, _, hl, .refl⟩⟩

lemma State.Later.trans (h : s.Later c s') (h' : s'.Later c s'') : s.Later c s'' where
  linked := List.Subset.trans h.linked h'.linked
  retired := List.Subset.trans h.retired h'.retired
  node hl := by
    obtain ⟨n', ns', hl', hn⟩ := h.node hl
    obtain ⟨n'', ns'', hl'', hn'⟩ := h'.node hl'
    exact ⟨n'', ns'', hl'', hn.trans hn'⟩

variable [DecidableEq A] [LinearOrder K] [DecidableEq V] [DecidableEq T]

lemma State.Later.of_eq (hl : s.linked ⊆ s'.linked) (hr : s.retired ⊆ s'.retired) (hm : s'.memory = s.memory) :
    s.Later c s' :=
  ⟨hl, hr, fun hl => ⟨_, _, by rw [hm]; exact hl, .refl⟩⟩

lemma State.Later.store (hl : s.linked ⊆ s'.linked) (hr : s'.retired = s.retired)
    (hm : s'.memory = s.memory.store a n') (ha : s.memory.log a = n :: ns) (hn : n.Later c n') : s.Later c s' where
  linked := hl
  retired := by
    rw [hr]
    exact List.Subset.refl _
  node {b x xs} hb := by
    rw [hm]
    by_cases hba : b = a
    · subst hba
      rw [ha] at hb
      cases hb
      exact ⟨n', _, store_self, hn⟩
    · exact ⟨x, xs, (store_other hba).trans hb, .refl⟩

lemma later_setNext {level : ℕ} {p : Ptr A} (h : (n.next level).deleted = false) :
    n.Later c (n.setNext level p) where
  key := rfl
  height := rfl
  unlinked := id
  reserved := id
  raised _ _ := rfl
  deleted level' hd := by
    have hne : level' ≠ level := by
      rintro rfl
      rw [h] at hd
      cases hd
    exact Function.update_of_ne hne ..

lemma later_value {v : V} (h : n.value ≠ c.unlink_sentinel) : n.Later c { n with value := v } where
  key := rfl
  height := rfl
  unlinked hu := absurd hu h
  reserved := id
  raised _ _ := rfl
  deleted _ _ := rfl

lemma later_level {w : ℕ} (h : n.link_level = 0 ∨ n.link_level = 1) (hw : w ≠ 0) :
    n.Later c { n with link_level := w } where
  key := rfl
  height := rfl
  unlinked := id
  reserved _ := hw
  raised hzero hone := absurd (h.resolve_left hzero) hone
  deleted _ _ := rfl

lemma values_old {p : Ptr A} {old new : V} (hok : Ok c s pc) (hv : Values c pc p old new pc') :
    old ≠ c.unlink_sentinel := by
  cases hv with
  | revive | claim => exact c.distinct
  | delete => exact hok.2.1.2

lemma levels_cases {p : Ptr A} {old new : ℕ} (hok : Ok c s pc) (hl : Levels c pc p old new pc') :
    (old = 0 ∨ old = 1) ∧ new ≠ 0 := by
  cases hl with
  | reserve => exact ⟨.inl rfl, Nat.one_ne_zero⟩
  | settle hnode => exact ⟨.inr rfl, Nat.ne_of_gt (Nat.lt_trans Nat.zero_lt_one hok.1.2)⟩

lemma Inv.later (h : Inv c s) {x : Act A K V T} (hs : Step c s x s') : s.Later c s' := by
  cases hs with
  | call | looks | requeue | finish =>
    exact .of_eq (List.Subset.refl _) (List.Subset.refl _) rfl
  | @links t v p a n ns level old new pc hl ha hn hold =>
    obtain ⟨-, -, -, -, hdel⟩ := links_ok (h.pc t) hl
    rw [← hold] at hdel
    exact State.Later.store (List.Subset.refl _) rfl rfl hn (later_setNext hdel)
  | @values t v p a n ns old new pc hv ha hn hold =>
    have hne := values_old (h.pc t) hv
    rw [← hold] at hne
    exact State.Later.store (List.Subset.refl _) rfl rfl hn (later_value hne)
  | @levels t v p a n ns old new pc hl ha hn hold =>
    obtain ⟨hcases, hnew⟩ := levels_cases (h.pc t) hl
    rw [← hold] at hcases
    exact State.Later.store (List.Subset.refl _) rfl rfl hn (later_level hcases hnew)
  | @allocate t a height k value curr hpc hnew _ _ =>
    refine ⟨List.Subset.refl _, List.Subset.refl _, fun {b x xs} hb => ?_⟩
    have hba : b ≠ a := by
      rintro rfl
      rw [h.heap.unwritten b hnew] at hb
      cases hb
    exact ⟨x, xs, (store_other hba).trans hb, .refl⟩
  | @link t v op curr new_node height a n ns hpc ha hn hold =>
    refine State.Later.store (List.subset_cons_self _ _) rfl rfl hn (later_setNext ?_)
    rw [hold]
    rfl
  | retire => exact .of_eq (List.Subset.refl _) (List.subset_cons_self _ _) rfl

/-- However old the copies that the threads act on, a link that is marked for deletion never changes again, a node
that is being unlinked stays so, and its link level goes from 0 to 1 and on to its last value. -/
theorem later_of_le (r : (machine c).Run) {i j : ℕ} (hij : i ≤ j) (hj : j ≤ r.len) :
    (r.state i).Later c (r.state j) := by
  apply r.from_on (I := fun _ s => (r.state i).Later c s) hj
  · exact .refl
  · intro k _ hk ih hs
    have hinv := inv_of_reachable (r.reachable k (by omega))
    exact ih.trans (hinv.later (step_cases hs))
  · exact hij
  · exact Nat.le_refl j

/-! A client inserts, a helper thread raises the node, the client removes it, the helper thread unlinks it, and the
client still finds it in its copies. -/

section Pair

def pair : Config ℕ ℕ ℕ Bool where
  max_height := 2
  tall := Nat.le_refl 2
  min_key := 0
  delete_sentinel := 100
  unlink_sentinel := 101
  distinct := by decide
  zero := 0
  root := 0
  root_height := 0
  root_link_level := 0
  cache_floor _ := 0
  is_helper := id

instance [Inhabited T] : Inhabited (Act A K V T) := ⟨.finish default⟩

abbrev PairAct := Act ℕ ℕ ℕ Bool

def steps (t : Bool) (n : ℕ) : List PairAct := List.replicate n (.next t Version.latest)

def pairActs : List PairAct :=
  .call false (.insert 5 7) :: steps false 3 ++ .allocate false 1 2 :: steps false 1 ++ .finish false ::
    steps true 12 ++ .call false (.remove 5) :: steps false 4 ++ .finish false :: steps true 13 ++
    [.call false (.contains 5), .next false ⟨0, 0, fun _ => 2⟩, .next false ⟨4, 0, fun _ => 0⟩,
      .next false Version.latest]

lemma pair_enabled : (Machine.exec (machine pair) (initial pair) pairActs).isSome := by
  decide +kernel

def pairRun : (machine pair).Run := .ofActs _ _ pairActs rfl pair_enabled

theorem later_of_le_pair : (pairRun.state 19).Later pair (pairRun.state 42) :=
  later_of_le pairRun (by decide) (by decide)

end Pair

/-! ### Who works on a node -/

/-- The node that a helper thread unlinks, from its claim to the limbo list. -/
def Pc.claimed : Pc A K V → Option A
  | .fillRoot (.unlink curr _) | .fill (.unlink curr _) _ | .mark curr _ _ _ | .unlink curr _ _ _
  | .retire curr => curr.remote_origin.address
  | _ => none

/-- The node that a helper thread raises. -/
def Pc.reserved : Pc A K V → Option A
  | .fillRoot (.raise curr) | .fill (.raise curr) _ | .raise curr _ _ | .attach curr _ _ | .settle curr _
  | .refresh curr => curr.remote_origin.address
  | _ => none

/-- The node's value says that it is being unlinked. -/
def Unlinked (c : Config A K V T) (s : State A K V T) (a : A) : Prop :=
  ∃ n ns, s.memory.log a = n :: ns ∧ n.value = c.unlink_sentinel

def Reserved (s : State A K V T) (a : A) : Prop := ∃ n ns, s.memory.log a = n :: ns ∧ n.link_level ≠ 0

structure Owned (c : Config A K V T) (s : State A K V T) : Prop where
  claimed : ∀ {t a}, (s.pc t).claimed = some a → a ∉ s.retired ∧ Unlinked c s a
  claimed_once : ∀ {t u a}, (s.pc t).claimed = some a → (s.pc u).claimed = some a → t = u
  reserved : ∀ {t a}, (s.pc t).reserved = some a → Reserved s a
  reserved_once : ∀ {t u a}, (s.pc t).reserved = some a → (s.pc u).reserved = some a → t = u
  retired : ∀ a ∈ s.retired, a ∈ s.linked ∧ Unlinked c s a
  retired_nodup : s.retired.Nodup

lemma Unlinked.later (h : Unlinked c s a) (hl : s.Later c s') : Unlinked c s' a := by
  obtain ⟨n, ns, ha, hn⟩ := h
  obtain ⟨n', ns', ha', hn'⟩ := hl.node ha
  exact ⟨n', ns', ha', hn'.unlinked hn⟩

lemma Reserved.later (h : Reserved s a) (hl : s.Later c s') : Reserved s' a := by
  obtain ⟨n, ns, ha, hn⟩ := h
  obtain ⟨n', ns', ha', hn'⟩ := hl.node ha
  exact ⟨n', ns', ha', hn'.reserved hn⟩

/-- One thread goes on, with no new node in the limbo lists. -/
lemma Owned.move (h : Owned c s) (hl : s.Later c s') (hpc : s'.pc = Function.update s.pc t pc)
    (hretired : s'.retired = s.retired)
    (hclaimed : ∀ a, pc.claimed = some a → (s.pc t).claimed = some a ∨
      a ∉ s.retired ∧ Unlinked c s' a ∧ ∀ u, u ≠ t → (s.pc u).claimed ≠ some a)
    (hreserved : ∀ a, pc.reserved = some a → (s.pc t).reserved = some a ∨
      Reserved s' a ∧ ∀ u, u ≠ t → (s.pc u).reserved ≠ some a) : Owned c s' where
  claimed {u a} hu := by
    rw [hretired]
    rw [hpc] at hu
    by_cases hut : u = t
    · subst hut
      rw [Function.update_self] at hu
      rcases hclaimed a hu with hold | ⟨hnot, hunlinked, -⟩
      · exact ⟨(h.claimed hold).1, (h.claimed hold).2.later hl⟩
      · exact ⟨hnot, hunlinked⟩
    · rw [Function.update_of_ne hut] at hu
      exact ⟨(h.claimed hu).1, (h.claimed hu).2.later hl⟩
  claimed_once hu hw := by
    rw [hpc] at hu hw
    exact holder_update h.claimed_once (fun a ha => (hclaimed a ha).imp id fun hnew => hnew.2.2) hu hw
  reserved {u a} hu := by
    rw [hpc] at hu
    by_cases hut : u = t
    · subst hut
      rw [Function.update_self] at hu
      rcases hreserved a hu with hold | ⟨hnew, -⟩
      · exact (h.reserved hold).later hl
      · exact hnew
    · rw [Function.update_of_ne hut] at hu
      exact (h.reserved hu).later hl
  reserved_once hu hw := by
    rw [hpc] at hu hw
    exact holder_update h.reserved_once (fun a ha => (hreserved a ha).imp id fun hnew => hnew.2) hu hw
  retired a ha := by
    rw [hretired] at ha
    exact ⟨hl.linked (h.retired a ha).1, (h.retired a ha).2.later hl⟩
  retired_nodup := by
    rw [hretired]
    exact h.retired_nodup

/-- A thread at `pc'` works on no node that it did not work on at `pc`. -/
def Works (pc pc' : Pc A K V) : Prop :=
  (pc'.claimed = none ∨ pc'.claimed = pc.claimed) ∧ (pc'.reserved = none ∨ pc'.reserved = pc.reserved)

section Works

variable {curr : Obj A K V}

lemma Works.of_none (hc : pc'.claimed = none) (hr : pc'.reserved = none) : Works pc pc' := ⟨.inl hc, .inl hr⟩

lemma unlinkNode_works (retries : ℕ) : (unlinkNode c curr retries).claimed = curr.remote_origin.address ∧
    (unlinkNode c curr retries).reserved = none := by
  rcases unlinkNode_cases c curr retries with hv | hv <;> rw [hv] <;> exact ⟨rfl, rfl⟩

lemma looks_works (h : Looks c s t pc pc') : Works pc pc' := by
  cases h with
  | find hf => cases stepFind_finds hf <;> exact .of_none rfl rfl
  | @fill w f v pc hf =>
    cases stepFill_fills hf with
    | fill => cases w <;> exact ⟨.inr rfl, .inr rfl⟩
    | again | nonblock => exact .of_none rfl rfl
    | mark | raise => exact ⟨.inr rfl, .inr rfl⟩
  | @fillRoot w curr v => cases w <;> exact ⟨.inr rfl, .inr rfl⟩
  | revived =>
    split_ifs <;> exact .of_none rfl rfl
  | unhelped hpc =>
    rcases hpc with rfl | rfl <;> exact .of_none rfl rfl
  | @helper curr next v =>
    rcases visit_cases c next with hv | hv | hv <;> rw [hv] <;> exact .of_none rfl rfl
  | remark | retry => exact ⟨.inr (unlinkNode_works _).1, .inl (unlinkNode_works _).2⟩
  | unlinked | skip | marked | pass | raised | reraise | reattach | settled => exact ⟨.inr rfl, .inr rfl⟩
  | _ => exact .of_none rfl rfl

lemma links_works {p old new : Ptr A} {level : ℕ} (h : Links c pc p level old new pc') : Works pc pc' := by
  cases h with
  | nonblock => exact .of_none rfl rfl
  | _ => exact ⟨.inr rfl, .inr rfl⟩

end Works

lemma Owned.works (h : Owned c s) (hl : s.Later c s') (hpc : s'.pc = Function.update s.pc t pc)
    (hretired : s'.retired = s.retired) (hw : Works (s.pc t) pc) : Owned c s' := by
  refine h.move hl hpc hretired (fun a ha => ?_) fun a ha => ?_
  · rcases hw.1 with hnone | hsame
    · rw [hnone] at ha
      cases ha
    · rw [hsame] at ha
      exact .inl ha
  · rcases hw.2 with hnone | hsame
    · rw [hnone] at ha
      cases ha
    · rw [hsame] at ha
      exact .inl ha

/-- A node whose removal is claimed has not been claimed before. -/
lemma Owned.claim (h : Owned c s) (hi : Inv c s) {curr : Obj A K V} (hpc : s.pc t = .claim curr)
    (ha : curr.remote_origin.address = some a) (hl : s.memory.log a = n :: ns)
    (hold : n.value = c.delete_sentinel) : Owned c (s.put t
      (s.memory.store a { n with value := c.unlink_sentinel }) (unlinkNode c curr 10000)) := by
  have hnot : ¬ Unlinked c s a := by
    rintro ⟨x, xs, hx, hvalue⟩
    rw [hl] at hx
    cases hx
    exact c.distinct (hold.symm.trans hvalue)
  have hlater : s.Later c (s.put t (s.memory.store a { n with value := c.unlink_sentinel })
      (unlinkNode c curr 10000)) := by
    refine State.Later.store (List.Subset.refl _) rfl rfl hl (later_value ?_)
    rw [hold]
    exact c.distinct
  refine h.move hlater rfl rfl (fun b hb => ?_) fun b hb => ?_
  · rw [(unlinkNode_works 10000).1, ha] at hb
    cases hb
    refine .inr ⟨fun hr => hnot (h.retired a hr).2, ⟨_, _, store_self, rfl⟩, fun u _ hu => ?_⟩
    exact hnot (h.claimed hu).2
  · rw [(unlinkNode_works 10000).2] at hb
    cases hb

/-- A node that a thread sets out to raise has not been raised before. -/
lemma Owned.reserve (h : Owned c s) {curr : Obj A K V} (ha : curr.remote_origin.address = some a)
    (hl : s.memory.log a = n :: ns) (hold : n.link_level = 0) : Owned c (s.put t
      (s.memory.store a { n with link_level := 1 })
      (if curr.node.link_level = 0 ∧ 1 < curr.node.height then .fillRoot (.raise curr) else .helper curr)) := by
  have hnot : ¬ Reserved s a := by
    rintro ⟨x, xs, hx, hlevel⟩
    rw [hl] at hx
    cases hx
    exact hlevel hold
  have hlater : s.Later c (s.put t (s.memory.store a { n with link_level := 1 })
      (if curr.node.link_level = 0 ∧ 1 < curr.node.height then .fillRoot (.raise curr) else .helper curr)) :=
    State.Later.store (List.Subset.refl _) rfl rfl hl (later_level (.inl hold) Nat.one_ne_zero)
  refine h.move hlater rfl rfl (fun b hb => ?_) fun b hb => ?_
  · split_ifs at hb <;> cases hb
  · split_ifs at hb
    · have hb' : curr.remote_origin.address = some b := hb
      rw [ha] at hb'
      cases hb'
      exact .inr ⟨⟨_, _, store_self, Nat.one_ne_zero⟩, fun u _ hu => hnot (h.reserved hu)⟩
    · cases hb

lemma Owned.retire (h : Owned c s) {curr next : Obj A K V} (hpc : s.pc t = .retire curr)
    (ha : curr.remote_origin.address = some a) (hlinked : a ∈ s.linked) :
    Owned c ({ s with retired := a :: s.retired }.setPc t (.helper next)) := by
  have hmine : (s.pc t).claimed = some a := by
    rw [hpc]
    exact ha
  obtain ⟨hnot, hunlinked⟩ := h.claimed hmine
  have hother : ∀ u, u ≠ t → (Function.update s.pc t (.helper next)) u = s.pc u :=
    fun u hu => Function.update_of_ne hu ..
  have hself : ∀ {b}, ((Function.update s.pc t (.helper next)) t).claimed ≠ some b ∧
      ((Function.update s.pc t (.helper next)) t).reserved ≠ some b := by
    intro b
    rw [Function.update_self]
    exact ⟨fun hb => (by cases hb), fun hb => (by cases hb)⟩
  constructor
  · intro u b hu
    have hut : u ≠ t := by
      rintro rfl
      exact hself.1 hu
    simp only [State.setPc, hother u hut] at hu
    refine ⟨fun hb => ?_, (h.claimed hu).2⟩
    rcases List.mem_cons.mp hb with rfl | hb
    · exact hut (h.claimed_once hu hmine)
    · exact (h.claimed hu).1 hb
  · intro u w b hu hw
    exact holder_update h.claimed_once (fun d hd => by cases hd) hu hw
  · intro u b hu
    have hut : u ≠ t := by
      rintro rfl
      exact hself.2 hu
    simp only [State.setPc, hother u hut] at hu
    exact h.reserved hu
  · intro u w b hu hw
    exact holder_update h.reserved_once (fun d hd => by cases hd) hu hw
  · intro b hb
    rcases List.mem_cons.mp hb with rfl | hb
    · exact ⟨hlinked, hunlinked⟩
    · exact h.retired b hb
  · exact List.nodup_cons.mpr ⟨hnot, h.retired_nodup⟩

lemma Owned.step (h : Owned c s) (hi : Inv c s) {x : Act A K V T} (hs : Step c s x s') : Owned c s' := by
  have hlater := hi.later hs
  cases hs with
  | call hpc => exact h.works hlater rfl rfl (.of_none rfl rfl)
  | looks hl => exact h.works hlater rfl rfl (looks_works hl)
  | links hl ha hn hold => exact h.works hlater rfl rfl (links_works hl)
  | @values t v p a n ns old new pc hv ha hn hold =>
    generalize hpc : s.pc t = pc₀ at hv
    cases hv with
    | claim => exact h.claim hi hpc ha hn hold
    | revive | delete => exact h.works hlater rfl rfl (.of_none rfl rfl)
  | @levels t v p a n ns old new pc hl ha hn hold =>
    generalize hpc : s.pc t = pc₀ at hl
    cases hl with
    | reserve => exact h.reserve ha hn hold
    | settle hnode =>
      refine h.works hlater rfl rfl ?_
      rw [hpc]
      exact ⟨.inl rfl, .inr rfl⟩
  | allocate => exact h.works hlater rfl rfl (.of_none rfl rfl)
  | link => exact h.works hlater rfl rfl (.of_none rfl rfl)
  | requeue => exact h.works hlater rfl rfl (.of_none rfl rfl)
  | @retire t v curr a next hpc ha hr =>
    have hok := hi.pc t
    rw [hpc] at hok
    exact h.retire hpc ha (Sound.known hok a ha)
  | finish => exact h.works hlater rfl rfl (.of_none rfl rfl)

lemma Owned.initial : Owned c (initial c) := by
  have hpc : ∀ t, ((Rdmask.initial c).pc t).claimed = none ∧ ((Rdmask.initial c).pc t).reserved = none := by
    intro t
    simp only [Rdmask.initial]
    split_ifs <;> exact ⟨rfl, rfl⟩
  constructor
  · intro t a ht
    rw [(hpc t).1] at ht
    cases ht
  · intro t u a ht
    rw [(hpc t).1] at ht
    cases ht
  · intro t a ht
    rw [(hpc t).2] at ht
    cases ht
  · intro t u a ht
    rw [(hpc t).2] at ht
    cases ht
  · intro a ha
    cases ha
  · exact List.nodup_nil

lemma owned_of_reachable (h : (machine c).Reachable s) : Inv c s ∧ Owned c s := by
  apply h.invariant
  · rintro s rfl
    exact ⟨.initial, .initial⟩
  · intro s a s' hi hs
    exact ⟨hi.1.step (step_cases hs), hi.2.step hi.1 (step_cases hs)⟩

/-- Every node is given back at most once, by `requeue` if it was never linked, through a limbo list if it is being
unlinked for good; at most one thread ever unlinks it and at most one raises it. -/
theorem given_back_once (h : (machine c).Reachable s) : (s.requeued ++ s.retired).Nodup ∧
    (∀ a ∈ s.requeued, a ∉ s.linked) ∧ (∀ a ∈ s.retired, a ∈ s.linked ∧ Unlinked c s a) ∧
    (∀ t u a, (s.pc t).claimed = some a → a ∉ s.retired ∧ ((s.pc u).claimed = some a → t = u)) ∧
    ∀ t u a, (s.pc t).reserved = some a → (s.pc u).reserved = some a → t = u := by
  obtain ⟨hi, ho⟩ := owned_of_reachable h
  refine ⟨List.nodup_append.mpr ⟨hi.heap.requeued_nodup, ho.retired_nodup, ?_⟩, hi.heap.disjoint, ho.retired,
    fun t u a ha => ⟨(ho.claimed ha).1, ho.claimed_once ha⟩, fun t u a ha hu => ho.reserved_once ha hu⟩
  rintro a ha b hb rfl
  exact hi.heap.disjoint a ha (ho.retired a hb).1

theorem given_back_once_pair : (pairRun.state 42).retired = [1] ∧
    ((pairRun.state 42).requeued ++ (pairRun.state 42).retired).Nodup :=
  ⟨by decide +kernel, (given_back_once (pairRun.reachable 42 (by decide))).1⟩

end ObjectCache.Rdmask
