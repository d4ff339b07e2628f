import ObjectCache.Rdmask.Threads

/-! Every step of a thread of `RdmaSkipList`: whether it only looks at nodes, or swaps one word of a node that it
has seen. -/

set_option linter.unusedSectionVars false

namespace ObjectCache.Rdmask

open Lib

variable {A K V T W : Type}

/-! ### The memory -/

section Memory

variable {m m' : Memory A K V} {p : Ptr A} {a b : A} {n : Node A K V} {o : Obj A K V} {v : Version}

/-- A node whose words are words that the list has had. -/
structure Reads (l : List (Node A K V)) (n : Node A K V) : Prop where
  same : ∃ x ∈ l, x.key = n.key ∧ x.height = n.height
  value : ∃ x ∈ l, x.value = n.value
  link_level : ∃ x ∈ l, x.link_level = n.link_level
  next : ∀ h, ∃ x ∈ l, x.next h = n.next h

lemma Reads.mono {l l' : List (Node A K V)} (h : Reads l n) (hl : l ⊆ l') : Reads l' n where
  same := by
    obtain ⟨x, hx, he⟩ := h.same
    exact ⟨x, hl hx, he⟩
  value := by
    obtain ⟨x, hx, he⟩ := h.value
    exact ⟨x, hl hx, he⟩
  link_level := by
    obtain ⟨x, hx, he⟩ := h.link_level
    exact ⟨x, hl hx, he⟩
  next level := by
    obtain ⟨x, hx, he⟩ := h.next level
    exact ⟨x, hl hx, he⟩

lemma getD_mem (n : Node A K V) (ns : List (Node A K V)) (i : ℕ) : (n :: ns).getD i n ∈ n :: ns := by
  rw [List.getD_eq_getElem?_getD]
  cases hi : (n :: ns)[i]? with
  | none => exact List.mem_cons_self
  | some x => exact List.mem_of_getElem? hi

variable [DecidableEq A]

lemma read_reads (h : m.read p v = some o) :
    ∃ a, p.address = some a ∧ o.remote_origin = p ∧ Reads (m.log a) o.node := by
  rw [Memory.read] at h
  cases ha : p.address with
  | none => simp [ha] at h
  | some a =>
    simp only [ha] at h
    cases hl : m.log a with
    | nil => simp [hl] at h
    | cons n ns =>
      simp only [hl, Option.some.injEq] at h
      subst h
      refine ⟨a, rfl, rfl, ?_⟩
      rw [hl]
      exact ⟨⟨n, List.mem_cons_self, rfl, rfl⟩, ⟨_, getD_mem n ns v.value, rfl⟩,
        ⟨_, getD_mem n ns v.link_level, rfl⟩, fun level => ⟨_, getD_mem n ns (v.next level), rfl⟩⟩

lemma cas_cases [DecidableEq W] {get : Node A K V → W} {set : Node A K V → W → Node A K V} {old new w : W}
    (h : m.cas p get set old new = some (w, m')) :
    ∃ a n ns, p.address = some a ∧ m.log a = n :: ns ∧ w = get n ∧
      (w = old ∧ m' = m.store a (set n new) ∨ w ≠ old ∧ m' = m) := by
  rw [Memory.cas] at h
  cases ha : p.address with
  | none => simp [ha] at h
  | some a =>
    simp only [ha] at h
    cases hl : m.log a with
    | nil => simp [hl] at h
    | cons n ns =>
      simp only [hl, Option.some.injEq, Prod.mk.injEq] at h
      obtain ⟨rfl, rfl⟩ := h
      refine ⟨a, n, ns, rfl, hl, rfl, ?_⟩
      by_cases hold : get n = old
      · rw [if_pos hold]
        exact .inl ⟨hold, rfl⟩
      · rw [if_neg hold]
        exact .inr ⟨hold, rfl⟩

lemma store_self : (m.store a n).log a = n :: m.log a := Function.update_self ..

lemma store_other (h : b ≠ a) : (m.store a n).log b = m.log b := Function.update_of_ne h ..

lemma log_subset_store : m.log b ⊆ (m.store a n).log b := by
  by_cases hb : b = a
  · subst hb
    rw [store_self]
    exact List.subset_cons_self _ _
  · rw [store_other hb]
    exact List.Subset.refl _

end Memory

/-! ### The steps -/

variable [DecidableEq A] [LinearOrder K] [DecidableEq V] [DecidableEq T] {c : Config A K V T}

/-- A thread goes on without a change to the memory. -/
inductive Looks (c : Config A K V T) (s : State A K V T) (t : T) : Pc A K V → Pc A K V → Prop
  | findRoot {op curr v} : s.memory.read (c.root_ptr t) v = some curr →
      Looks c s t (.findRoot op) (.find op curr (c.max_height - 1))
  | find {op curr height v pc} : stepFind c s op curr height v = some pc → Looks c s t (.find op curr height) pc
  | revived {k value curr a n ns} : curr.remote_origin.address = some a → s.memory.log a = n :: ns →
      n.value ≠ c.delete_sentinel → Looks c s t (.revive (.insert k value) curr)
        (if n.value = c.unlink_sentinel then .findRoot (.insert k value)
          else .done (.insert k value) (some n.value))
  | deleted {op curr} : Looks c s t (.delete op curr) (.done op none)
  | fillRoot {w curr v} : s.memory.read (c.root_ptr t) v = some curr → Looks c s t (.fillRoot w)
      (.fill w ⟨curr, none, c.max_height - 1, fun _ => ⟨.null, .null, false, c.min_key⟩⟩)
  | fill {w f v pc} : stepFill c s w f v = some pc → Looks c s t (.fill w f) pc
  | unhelped {op f node pc} : pc = .findRoot op ∨ pc = .fillRoot (.nonblock op (f.level 0).prev_key) →
      Looks c s t (.nonblock op f node) pc
  | helperRoot {curr v} : s.memory.read (c.root_ptr t) v = some curr → Looks c s t .helperRoot (.helper curr)
  | again {curr} : Looks c s t (.helper curr) .helperRoot
  | helper {curr next v} : s.memory.read (curr.node.next 0).sans v = some next →
      Looks c s t (.helper curr) (visit c next)
  | unclaimed {curr} : Looks c s t (.claim curr) (.helper curr)
  | unreserved {curr} : Looks c s t (.reserve curr) (.helper curr)
  | unlinked {curr retries f} : Looks c s t (.mark curr retries f 0) (.retire curr)
  | skip {curr retries f height} : Looks c s t (.mark curr retries f (height + 1)) (.mark curr retries f height)
  | marked {curr retries f height} : Looks c s t (.mark curr retries f (height + 1)) (.unlink curr retries f height)
  | remark {curr retries f height} : Looks c s t (.mark curr retries f height) (unlinkNode c curr (retries - 1))
  | retry {curr retries f height} : Looks c s t (.unlink curr retries f height) (unlinkNode c curr (retries - 1))
  | pass {curr f height} : Looks c s t (.raise curr f height) (.raise curr f (height + 1))
  | raised {curr f height} : Looks c s t (.raise curr f height) (.settle curr f)
  | reraise {curr f height} : Looks c s t (.raise curr f height) (.fillRoot (.raise curr))
  | reattach {curr f height} : Looks c s t (.attach curr f height) (.fillRoot (.raise curr))
  | settled {curr f} : Looks c s t (.settle curr f) (.refresh curr)
  | refresh {curr next v} : s.memory.read curr.remote_origin v = some next →
      Looks c s t (.refresh curr) (.helper next)

/-- Where an operation may go from `find`. -/
inductive Finds : MapOp K V → Pc A K V → Prop
  | again {op} : Finds op (.findRoot op)
  | find {op curr height} : Finds op (.find op curr height)
  | help {op key} : Finds op (.fillRoot (.nonblock op key))
  | contains {k ret} : Finds (.contains k) (.done (.contains k) ret)
  | kept {k value old} : Finds (.insert k value) (.done (.insert k value) (some old))
  | missing {k} : Finds (.remove k) (.done (.remove k) none)
  | revive {op curr} : Finds op (.revive op curr)
  | allocate {op curr} : Finds op (.allocate op curr)
  | delete {op curr} : Finds op (.delete op curr)

/-- Where the caller of `fill` may go from it. -/
inductive Fills : Caller A K V → Pc A K V → Prop
  | fill {w f} : Fills w (.fill w f)
  | again {op key} : Fills (.nonblock op key) (.findRoot op)
  | nonblock {op key f node} : Fills (.nonblock op key) (.nonblock op f node)
  | mark {curr retries f height} : Fills (.unlink curr retries) (.mark curr retries f height)
  | raise {curr f} : Fills (.raise curr) (.raise curr f 0)

section Visits

variable {s : State A K V T} {op : MapOp K V} {curr : Obj A K V} {f : Fill A K V} {w : Caller A K V}
  {l : Level A K} {v : Version} {pc : Pc A K V} {height : ℕ}

lemma found_finds (c : Config A K V T) (op : MapOp K V) (curr : Obj A K V) : Finds op (found c op curr) := by
  cases op with
  | contains k => exact .contains
  | insert k value =>
    simp only [found]
    split_ifs
    · exact .again
    · exact .revive
    · exact .kept
    · exact .allocate
  | remove k =>
    simp only [found]
    split_ifs
    · exact .missing
    · exact .delete
    · exact .missing

lemma descend_finds (c : Config A K V T) (op : MapOp K V) (curr : Obj A K V) (height : ℕ) :
    Finds op (descend c op curr height) := by
  cases height with
  | zero => exact found_finds c op curr
  | succ height => exact .find

lemma stepFind_finds (h : stepFind c s op curr height v = some pc) : Finds op pc := by
  rw [stepFind] at h
  split_ifs at h
  · cases h
    exact found_finds c op curr
  · cases h
    exact descend_finds c op curr height
  · obtain ⟨next_curr, -, rfl⟩ := Option.map_eq_some_iff.mp h
    split_ifs
    · exact .help
    · exact .find
    · exact descend_finds c op curr height

lemma filled_fills (h : filled c f w = some pc) : Fills w pc := by
  cases w with
  | nonblock op key =>
    simp only [filled] at h
    split_ifs at h
    · obtain ⟨node, -, rfl⟩ := Option.map_eq_some_iff.mp h
      split_ifs
      · exact .nonblock
      · exact .again
    · cases h
      exact .again
  | unlink curr retries =>
    cases h
    exact .mark
  | raise curr =>
    cases h
    exact .raise

lemma fill_descend_fills (h : f.descend c w l = some pc) : Fills w pc := by
  rw [Fill.descend] at h
  cases hh : f.height with
  | zero =>
    simp only [hh] at h
    exact filled_fills h
  | succ height =>
    simp only [hh, Option.some.injEq] at h
    subst h
    exact .fill

lemma stepFill_fills (h : stepFill c s w f v = some pc) : Fills w pc := by
  rw [stepFill] at h
  split_ifs at h
  · exact fill_descend_fills h
  · obtain ⟨next_curr, -, h⟩ := Option.bind_eq_some_iff.mp h
    split_ifs at h
    · cases h
      exact .fill
    · exact fill_descend_fills h
    · exact fill_descend_fills h

lemma visit_cases (c : Config A K V T) (curr : Obj A K V) :
    visit c curr = .claim curr ∨ visit c curr = .helper curr ∨ visit c curr = .reserve curr := by
  rw [visit]
  split_ifs
  · exact .inl rfl
  · exact .inr (.inl rfl)
  · exact .inr (.inr rfl)

lemma unlinkNode_cases (c : Config A K V T) (curr : Obj A K V) (retries : ℕ) :
    unlinkNode c curr retries = .retire curr ∨
      unlinkNode c curr retries = .fillRoot (.unlink curr retries) := by
  rw [unlinkNode]
  split_ifs
  · exact .inl rfl
  · exact .inl rfl
  · exact .inr rfl

end Visits

/-- A thread swaps a link of a node, from an unmarked pointer to another. -/
inductive Links (c : Config A K V T) : Pc A K V → Ptr A → ℕ → Ptr A → Ptr A → Pc A K V → Prop
  | nonblock {op f node} : Links c (.nonblock op f node) (f.level 0).pred 0 node.remote_origin.sans
      (f.level 0).succ.sans (.findRoot op)
  | mark {curr retries f height node} : f.next_curr = some node → (f.level height).succ.deleted = false →
      Links c (.mark curr retries f (height + 1)) node.remote_origin height (f.level height).succ
        (f.level height).succ.marked_del (.unlink curr retries f height)
  | unlink {curr retries f height node} : f.next_curr = some node → Links c (.unlink curr retries f height)
      (f.level height).pred height node.remote_origin.sans (f.level height).succ.sans (.mark curr retries f height)
  | raise {curr f height node} : f.next_curr = some node → (node.node.next height).deleted = false →
      Links c (.raise curr f height) node.remote_origin height (node.node.next height) (f.level height).succ
        (.attach curr f height)
  | attach {curr f height node} : f.next_curr = some node → Links c (.attach curr f height)
      (f.level height).pred height (f.level height).succ.sans node.remote_origin (.raise curr f (height + 1))

/-- A thread swaps the value of a node. -/
inductive Values (c : Config A K V T) : Pc A K V → Ptr A → V → V → Pc A K V → Prop
  | revive {k value curr} : Values c (.revive (.insert k value) curr) curr.remote_origin c.delete_sentinel value
      (.done (.insert k value) none)
  | delete {op curr} : Values c (.delete op curr) curr.remote_origin curr.node.value c.delete_sentinel
      (.done op (some curr.node.value))
  | claim {curr} : Values c (.claim curr) curr.remote_origin c.delete_sentinel c.unlink_sentinel
      (unlinkNode c curr 10000)

/-- A thread swaps the link level of a node. -/
inductive Levels (c : Config A K V T) : Pc A K V → Ptr A → ℕ → ℕ → Pc A K V → Prop
  | reserve {curr} : Levels c (.reserve curr) curr.remote_origin 0 1
      (if curr.node.link_level = 0 ∧ 1 < curr.node.height then .fillRoot (.raise curr) else .helper curr)
  | settle {curr f node} : f.next_curr = some node →
      Levels c (.settle curr f) node.remote_origin 1 curr.node.height (.refresh curr)

def Node.setNext (n : Node A K V) (level : ℕ) (p : Ptr A) : Node A K V :=
  { n with next := Function.update n.next level p }

def Config.newNode (k : K) (value : V) (height : ℕ) (next : Ptr A) : Node A K V where
  value := value
  key := k
  height := height
  link_level := 0
  next := Function.update (fun _ => .null) 0 next

inductive Step (c : Config A K V T) (s : State A K V T) : Act A K V T → State A K V T → Prop
  | call {t op} : s.pc t = .idle → Step c s (.call t op) (s.setPc t (.findRoot op))
  | looks {t v pc} : Looks c s t (s.pc t) pc → Step c s (.next t v) (s.setPc t pc)
  | links {t v p a n ns level old new pc} : Links c (s.pc t) p level old new pc → p.address = some a →
      s.memory.log a = n :: ns → n.next level = old →
      Step c s (.next t v) (s.put t (s.memory.store a (n.setNext level new)) pc)
  | values {t v p a n ns old new pc} : Values c (s.pc t) p old new pc → p.address = some a →
      s.memory.log a = n :: ns → n.value = old →
      Step c s (.next t v) (s.put t (s.memory.store a { n with value := new }) pc)
  | levels {t v p a n ns old new pc} : Levels c (s.pc t) p old new pc → p.address = some a →
      s.memory.log a = n :: ns → n.link_level = old →
      Step c s (.next t v) (s.put t (s.memory.store a { n with link_level := new }) pc)
  | allocate {t a height k value curr} : s.pc t = .allocate (.insert k value) curr → a ∉ s.allocated →
      1 ≤ height → height ≤ c.max_height →
      Step c s (.allocate t a height) ({ s with allocated := a :: s.allocated }.put t
        (s.memory.store a (Config.newNode k value height (curr.node.next 0))) (.link (.insert k value) curr a height))
  | link {t v op curr new_node height a n ns} : s.pc t = .link op curr new_node height →
      curr.remote_origin.address = some a → s.memory.log a = n :: ns → n.next 0 = (curr.node.next 0).sans →
      Step c s (.next t v) ({ s with linked := new_node :: s.linked }.put t
        (s.memory.store a (n.setNext 0 ⟨some new_node, c.cache_floor t < height, false⟩)) (.done op none))
  | requeue {t v op curr new_node height} : s.pc t = .link op curr new_node height →
      Step c s (.next t v) ({ s with requeued := new_node :: s.requeued }.setPc t (.findRoot op))
  | retire {t v curr a next} : s.pc t = .retire curr → curr.remote_origin.address = some a →
      s.memory.read curr.remote_origin v = some next →
      Step c s (.next t v) ({ s with retired := a :: s.retired }.setPc t (.helper next))
  | finish {t op ret} : s.pc t = .done op ret → Step c s (.finish t)
      ({ s with delta := Function.update s.delta t (counted (s.delta t) op ret) }.setPc t .idle)

variable {s s' : State A K V T} {t : T} {v : Version} {pc : Pc A K V} {m : Memory A K V} {p : Ptr A} {level : ℕ}

/-- Both outcomes of a swap of a link. -/
lemma casNext_cases {old new w : Ptr A} (h : s.memory.casNext p level old new = some (w, m)) :
    w = old ∧ (∃ a n ns, p.address = some a ∧ s.memory.log a = n :: ns ∧ n.next level = old ∧
      m = s.memory.store a (n.setNext level new)) ∨ w ≠ old ∧ m = s.memory := by
  obtain ⟨a, n, ns, hp, hl, rfl, ⟨hold, rfl⟩ | ⟨hold, rfl⟩⟩ := cas_cases h
  · exact .inl ⟨hold, a, n, ns, hp, hl, hold, rfl⟩
  · exact .inr ⟨hold, rfl⟩

lemma casValue_cases {old new w : V} (h : s.memory.casValue p old new = some (w, m)) :
    ∃ a n ns, p.address = some a ∧ s.memory.log a = n :: ns ∧ w = n.value ∧
      (w = old ∧ m = s.memory.store a { n with value := new } ∨ w ≠ old ∧ m = s.memory) :=
  cas_cases h

lemma casLink_cases {old new w : ℕ} (h : s.memory.casLink p old new = some (w, m)) :
    ∃ a n ns, p.address = some a ∧ s.memory.log a = n :: ns ∧ w = n.link_level ∧
      (w = old ∧ m = s.memory.store a { n with link_level := new } ∨ w ≠ old ∧ m = s.memory) :=
  cas_cases h

lemma step_revive {k : K} {value : V} {curr : Obj A K V} (hpc : s.pc t = .revive (.insert k value) curr)
    (h : step_next c s t v = some s') : Step c s (.next t v) s' := by
  simp only [step_next, hpc, Option.bind_eq_bind, Option.bind_eq_some_iff] at h
  obtain ⟨⟨old, m⟩, hcas, h⟩ := h
  obtain ⟨a, n, ns, ha, hl, rfl, ⟨hold, rfl⟩ | ⟨hold, rfl⟩⟩ := casValue_cases hcas
  · rw [if_pos hold] at h
    cases h
    apply Step.values _ ha hl hold
    rw [hpc]
    exact .revive
  · rw [if_neg hold] at h
    have hlook : Looks c s t (s.pc t) (if n.value = c.unlink_sentinel then .findRoot (.insert k value)
        else .done (.insert k value) (some n.value)) := by
      rw [hpc]
      exact .revived ha hl hold
    by_cases hu : n.value = c.unlink_sentinel
    · rw [if_pos hu] at h hlook
      cases h
      exact .looks hlook
    · rw [if_neg hu] at h hlook
      cases h
      exact .looks hlook

/-- A swap of a link that the thread's state comes to. -/
lemma step_casNext {old new : Ptr A} {f : Ptr A × Memory A K V → Option (State A K V T)}
    (h : (s.memory.casNext p level old new).bind f = some s') (hlink : Links c (s.pc t) p level old new pc)
    (hpos : ∀ m, f (old, m) = some (s.put t m pc))
    (hneg : ∀ w m, w ≠ old → f (w, m) = some s' → ∃ pc', Looks c s t (s.pc t) pc' ∧ s' = s.put t m pc') :
    Step c s (.next t v) s' := by
  obtain ⟨⟨w, m⟩, hcas, h⟩ := Option.bind_eq_some_iff.mp h
  obtain ⟨rfl, a, n, ns, ha, hl, hold, rfl⟩ | ⟨hold, rfl⟩ := casNext_cases hcas
  · rw [hpos] at h
    cases h
    exact .links hlink ha hl hold
  · obtain ⟨pc', hlook, rfl⟩ := hneg w _ hold h
    exact .looks hlook

lemma step_cases_next (h : step_next c s t v = some s') : Step c s (.next t v) s' := by
  cases hpc : s.pc t with
  | idle | done op ret | allocate op curr => simp [step_next, hpc] at h
  | findRoot op =>
    simp only [step_next, hpc, Option.map_eq_some_iff] at h
    obtain ⟨curr, hr, rfl⟩ := h
    apply Step.looks
    rw [hpc]
    exact .findRoot hr
  | find op curr height =>
    simp only [step_next, hpc, Option.map_eq_some_iff] at h
    obtain ⟨pc, hf, rfl⟩ := h
    apply Step.looks
    rw [hpc]
    exact .find hf
  | revive op curr =>
    cases op with
    | insert k value => exact step_revive hpc h
    | _ => simp [step_next, hpc] at h
  | link op curr new_node height =>
    simp only [step_next, hpc, Option.bind_eq_bind, Option.bind_eq_some_iff] at h
    obtain ⟨⟨w, m⟩, hcas, h⟩ := h
    obtain ⟨rfl, a, n, ns, ha, hl, hold, rfl⟩ | ⟨hold, rfl⟩ := casNext_cases hcas
    · rw [if_pos rfl] at h
      cases h
      exact .link hpc ha hl hold
    · rw [if_neg hold] at h
      cases h
      exact .requeue hpc
  | delete op curr =>
    simp only [step_next, hpc, Option.bind_eq_bind, Option.bind_eq_some_iff] at h
    obtain ⟨⟨w, m⟩, hcas, h⟩ := h
    obtain ⟨a, n, ns, ha, hl, rfl, ⟨hold, rfl⟩ | ⟨hold, rfl⟩⟩ := casValue_cases hcas
    · rw [if_pos hold] at h
      cases h
      apply Step.values _ ha hl hold
      rw [hpc]
      exact .delete
    · rw [if_neg hold] at h
      cases h
      apply Step.looks
      rw [hpc]
      exact .deleted
  | fillRoot w =>
    simp only [step_next, hpc, Option.map_eq_some_iff] at h
    obtain ⟨curr, hr, rfl⟩ := h
    apply Step.looks
    rw [hpc]
    exact .fillRoot hr
  | fill w f =>
    simp only [step_next, hpc, Option.map_eq_some_iff] at h
    obtain ⟨pc, hf, rfl⟩ := h
    apply Step.looks
    rw [hpc]
    exact .fill hf
  | nonblock op f node =>
    simp only [step_next, hpc, Option.bind_eq_bind] at h
    refine step_casNext h (by rw [hpc]; exact .nonblock) (fun m => if_pos rfl) fun w m hw hs => ?_
    rw [if_neg hw] at hs
    split_ifs at hs
    · cases hs
      refine ⟨_, ?_, rfl⟩
      rw [hpc]
      exact .unhelped (.inr rfl)
    · cases hs
      refine ⟨_, ?_, rfl⟩
      rw [hpc]
      exact .unhelped (.inl rfl)
  | helperRoot =>
    simp only [step_next, hpc, Option.map_eq_some_iff] at h
    obtain ⟨curr, hr, rfl⟩ := h
    apply Step.looks
    rw [hpc]
    exact .helperRoot hr
  | helper curr =>
    simp only [step_next, hpc] at h
    split_ifs at h
    · cases h
      apply Step.looks
      rw [hpc]
      exact .again
    · obtain ⟨next, hr, rfl⟩ := Option.map_eq_some_iff.mp h
      apply Step.looks
      rw [hpc]
      exact .helper hr
  | claim curr =>
    simp only [step_next, hpc, Option.bind_eq_bind, Option.bind_eq_some_iff] at h
    obtain ⟨⟨w, m⟩, hcas, h⟩ := h
    obtain ⟨a, n, ns, ha, hl, rfl, ⟨hold, rfl⟩ | ⟨hold, rfl⟩⟩ := casValue_cases hcas
    · rw [if_pos hold] at h
      cases h
      apply Step.values _ ha hl hold
      rw [hpc]
      exact .claim
    · rw [if_neg hold] at h
      cases h
      apply Step.looks
      rw [hpc]
      exact .unclaimed
  | reserve curr =>
    simp only [step_next, hpc, Option.bind_eq_bind, Option.bind_eq_some_iff] at h
    obtain ⟨⟨w, m⟩, hcas, h⟩ := h
    obtain ⟨a, n, ns, ha, hl, rfl, ⟨hold, rfl⟩ | ⟨hold, rfl⟩⟩ := casLink_cases hcas
    · have hlevels : Levels c (s.pc t) curr.remote_origin 0 1
          (if curr.node.link_level = 0 ∧ 1 < curr.node.height then .fillRoot (.raise curr) else .helper curr) := by
        rw [hpc]
        exact .reserve
      by_cases hr : curr.node.link_level = 0 ∧ 1 < curr.node.height
      · rw [if_pos ⟨hr.1, hr.2, hold⟩] at h
        rw [if_pos hr] at hlevels
        cases h
        exact .levels hlevels ha hl hold
      · rw [if_neg fun hall => hr ⟨hall.1, hall.2.1⟩] at h
        rw [if_neg hr] at hlevels
        cases h
        exact .levels hlevels ha hl hold
    · rw [if_neg fun hall => hold hall.2.2] at h
      cases h
      apply Step.looks
      rw [hpc]
      exact .unreserved
  | mark curr retries f height =>
    cases height with
    | zero =>
      simp only [step_next, hpc, Option.some.injEq] at h
      subst h
      apply Step.looks
      rw [hpc]
      exact .unlinked
    | succ height =>
      simp only [step_next, hpc] at h
      split_ifs at h with hfound hdel
      · cases h
        apply Step.looks
        rw [hpc]
        exact .skip
      · cases h
        apply Step.looks
        rw [hpc]
        exact .marked
      · obtain ⟨node, hnode, h⟩ := Option.bind_eq_some_iff.mp h
        refine step_casNext h (by rw [hpc]; exact .mark hnode (by simpa using hdel)) (fun m => if_pos rfl)
          fun w m hw hs => ?_
        rw [if_neg hw] at hs
        cases hs
        refine ⟨_, ?_, rfl⟩
        rw [hpc]
        exact .remark
  | unlink curr retries f height =>
    simp only [step_next, hpc, Option.bind_eq_bind, Option.bind_eq_some_iff] at h
    obtain ⟨node, hnode, h⟩ := h
    split_ifs at h with hdel
    have horigin : node.remote_origin.sans = node.remote_origin := by
      have hnot : node.remote_origin.deleted = false := by
        simp only [Bool.or_eq_true, not_or, Bool.not_eq_true] at hdel
        exact hdel.2
      rw [Ptr.sans, ← hnot]
    refine step_casNext h (by rw [hpc]; exact .unlink hnode) (fun m => ?_) fun w m hw hs => ?_
    · rw [horigin]
      exact if_pos rfl
    · rw [horigin] at hw
      rw [if_neg hw] at hs
      cases hs
      refine ⟨_, ?_, rfl⟩
      rw [hpc]
      exact .retry
  | retire curr =>
    simp only [step_next, hpc, Option.bind_eq_bind, Option.bind_eq_some_iff] at h
    obtain ⟨a, ha, next, hr, h⟩ := h
    cases h
    exact .retire hpc ha hr
  | raise curr f height =>
    simp only [step_next, hpc] at h
    split_ifs at h with hlt hfound
    · cases h
      apply Step.looks
      rw [hpc]
      exact .pass
    · obtain ⟨node, hnode, h⟩ := Option.bind_eq_some_iff.mp h
      split_ifs at h with hdel
      refine step_casNext h (by rw [hpc]; exact .raise hnode (by simpa using hdel)) (fun m => if_pos rfl)
        fun w m hw hs => ?_
      rw [if_neg hw] at hs
      cases hs
      refine ⟨_, ?_, rfl⟩
      rw [hpc]
      exact .reraise
    · cases h
      apply Step.looks
      rw [hpc]
      exact .raised
  | attach curr f height =>
    simp only [step_next, hpc, Option.bind_eq_bind, Option.bind_eq_some_iff] at h
    obtain ⟨node, hnode, h⟩ := h
    split_ifs at h
    refine step_casNext h (by rw [hpc]; exact .attach hnode) (fun m => if_pos rfl) fun w m hw hs => ?_
    rw [if_neg hw] at hs
    cases hs
    refine ⟨_, ?_, rfl⟩
    rw [hpc]
    exact .reattach
  | settle curr f =>
    simp only [step_next, hpc, Option.bind_eq_bind, Option.bind_eq_some_iff] at h
    obtain ⟨node, hnode, ⟨w, m⟩, hcas, h⟩ := h
    obtain ⟨a, n, ns, ha, hl, rfl, ⟨hold, rfl⟩ | ⟨hold, rfl⟩⟩ := casLink_cases hcas
    · cases h
      apply Step.levels _ ha hl hold
      rw [hpc]
      exact .settle hnode
    · cases h
      apply Step.looks
      rw [hpc]
      exact .settled
  | refresh curr =>
    simp only [step_next, hpc, Option.map_eq_some_iff] at h
    obtain ⟨next, hr, rfl⟩ := h
    apply Step.looks
    rw [hpc]
    exact .refresh hr

lemma step_cases {x : Act A K V T} (h : step c s x = some s') : Step c s x s' := by
  cases x with
  | call t op =>
    cases hpc : s.pc t with
    | idle =>
      simp only [step, hpc, Option.some.injEq] at h
      subst h
      exact .call hpc
    | _ => simp [step, hpc] at h
  | next t v => exact step_cases_next h
  | allocate t a height =>
    cases hpc : s.pc t with
    | allocate op curr =>
      cases op with
      | insert k value =>
        simp only [step, hpc, Option.ite_none_right_eq_some, Option.some.injEq] at h
        obtain ⟨⟨hnew, hpos, hmax⟩, rfl⟩ := h
        exact .allocate hpc hnew hpos hmax
      | _ => simp [step, hpc] at h
    | _ => simp [step, hpc] at h
  | finish t =>
    cases hpc : s.pc t with
    | done op ret =>
      simp only [step, hpc, Option.some.injEq] at h
      subst h
      exact .finish hpc
    | _ => simp [step, hpc] at h

end ObjectCache.Rdmask
