import ObjectCache.Sherman.IndexCache
import ObjectCache.LockFree.Removals
import Mathlib.Algebra.Order.BigOperators.Group.Finset

/-! The room of an `IndexCache`: what is taken after an insertion and given back after a removal. -/

set_option linter.unusedSectionVars false

namespace ObjectCache.Sherman.IndexCache

open Lib LockFree

variable {A B T : Type} [DecidableEq A] [DecidableEq T] {c : Config A} {s s' : State A B T} {a : Act A B T}
  {t u : T} {r r' : Trace c.list (BNode B) T}

abbrev State.memory (s : State A B T) : Memory A (BNode B) := s.skiplist.list.memory

noncomputable def State.live (c : Config A) (s : State A B T) : ℕ := (entries c.list s.memory).ncard

/-- What has been added to the live entries and not yet taken from the room. -/
def Pc.owes : Pc B → ℤ
  | .countAdd | .takeRoom => 1
  | .giveBack _ => -1
  | _ => 0

/-- From the decision to evict until the place is given back. -/
def Pc.evicting : Pc B → ℤ
  | .choose _ | .pick _ | .evict _ | .remove true | .giveBack true => 1
  | _ => 0

/-- In which call of the skip list the thread is. -/
def Pc.Agrees (pc : Pc B) (l : Local A (BNode B)) : Prop :=
  match pc with
  | .insert => ∃ lb ub x, l.op = .insert lb ub x
  | .remove _ => ∃ lb ub, l.op = .remove lb ub
  | _ => l.pc = .idle

lemma Pc.agrees_of_idle {pc : Pc B} {l : Local A (BNode B)} (h : l.pc = .idle) (hi : pc ≠ .insert)
    (hr : ∀ evicts, pc ≠ .remove evicts) : pc.Agrees l := by
  cases pc with
  | insert => exact absurd rfl hi
  | remove evicts => exact absurd rfl (hr evicts)
  | _ => exact h

lemma agrees_succ {r : Trace c.list (BNode B) T} {i : ℕ} {pc : Pc B} (h : pc.Agrees ((r.state i).thread u))
    (hi : i < r.len) (ho : ¬ opens u (r.act i)) : pc.Agrees ((r.state (i + 1)).thread u) := by
  cases pc with
  | insert | remove =>
    simp only [Pc.Agrees, op_succ hi ho]
    exact h
  | _ => exact idle_of_idle (r.next i hi) h ho

/-- The step `a` takes the step `x` of the list. -/
structure Goes (r r' : Trace c.list (BNode B) T) (s : State A B T) (a : Act A B T) (s' : State A B T)
    (x : LockFree.Act A (BNode B) T) : Prop extends Extends r r' x s'.skiplist.list where
  calls : ∀ u op, x = .call u op → ∃ pc, Calls s u a op pc ∧ s'.pc u = pc
  stays : ∀ u, ¬ opens u x → s'.pc u = .remove true → s.pc u = .remove true
  kind : (∃ u op, x = .call u op) ∨ (∃ u, x = .ret u) ∨ a = .skiplist (.list x)

/-- The run of the list that leads to the state. -/
structure Follows (s : State A B T) (r : Trace c.list (BNode B) T) : Prop where
  follows : r.state r.len = s.skiplist.list
  stored : Stored r
  agrees : ∀ t, (s.pc t).Agrees (s.skiplist.list.thread t)

lemma Calls.inserts {op : Op (BNode B)} {pc : Pc B} (h : Calls s t a op pc) (lb ub : ℤ) :
    op ≠ .insert lb ub none := by
  cases h <;> simp

lemma Calls.agrees {op : Op (BNode B)} {pc : Pc B} (h : Calls s t a op pc) {l : Local A (BNode B)}
    (hop : l.op = op) : pc.Agrees l := by
  cases h with
  | add => exact ⟨_, _, _, hop⟩
  | invalidate | evict => exact ⟨_, _, hop⟩

section Follows

variable (h : Follows s r)

include h

/-- A step of the list that calls nothing. -/
lemma Follows.inner {x : LockFree.Act A (BNode B) T} {list : LockFree.State A (BNode B) T}
    (hx : ∀ u op, x ≠ .call u op) (hstep : LockFree.step c.list s.skiplist.list x = some list) :
    ∃ r' : Trace c.list (BNode B) T, Extends r r' x list ∧ Stored r' ∧
      ∀ u (pc : Pc B), pc.Agrees (s.skiplist.list.thread u) → pc.Agrees (list.thread u) := by
  rw [← h.follows] at hstep
  obtain ⟨r', hr'⟩ := exists_extends hstep
  have hlt : r.len < r'.len := by
    rw [hr'.len]
    exact Nat.lt_succ_self _
  have hno : ∀ u, ¬ opens u (r'.act r.len) := by
    intro u
    rw [hr'.last]
    cases x with
    | call v op => exact absurd rfl (hx v op)
    | _ => exact id
  refine ⟨r', hr', hr'.ops h.stored rfl ?_, fun u pc hpc => ?_⟩
  · intro lb ub
    have hop := op_succ hlt (hno x.thread)
    rw [hr'.final, hr'.state r.len le_rfl] at hop
    rw [hop]
    exact h.stored r.len le_rfl _ lb ub
  · rw [← h.follows, ← hr'.state r.len le_rfl] at hpc
    have hagrees := agrees_succ hpc hlt (hno u)
    rwa [hr'.final] at hagrees

/-- A call of the list. -/
lemma Follows.call {op : Op (BNode B)} {pc : Pc B} {list : LockFree.State A (BNode B) T}
    (hcall : Calls s t a op pc) (hstep : LockFree.step c.list s.skiplist.list (.call t op) = some list) :
    ∃ r' : Trace c.list (BNode B) T, Extends r r' (.call t op) list ∧ Stored r' ∧
      (list.thread t).op = op ∧ list.memory = s.memory ∧
      ∀ u, u ≠ t → list.thread u = s.skiplist.list.thread u := by
  have hs := LockFree.step_cases hstep
  rw [← h.follows] at hstep
  obtain ⟨r', hr'⟩ := exists_extends hstep
  cases hs with
  | call hpc hlegal =>
    refine ⟨r', hr', hr'.ops (t := t) h.stored rfl ?_, ?_, rfl, ?_⟩
    · intro lb ub
      simp only [LockFree.State.put, Function.update_self]
      exact hcall.inserts lb ub
    · simp only [LockFree.State.put, Function.update_self]
    · intro u hu
      exact Function.update_of_ne hu ..

lemma Follows.called {op : Op (BNode B)} {pc : Pc B} {skiplist : Get.State A (BNode B) T}
    (hcall : Calls s t a op pc) (hr' : Extends r r' (.call t op) skiplist.list) (hstored : Stored r')
    (hop : (skiplist.list.thread t).op = op)
    (hothers : ∀ u, u ≠ t → skiplist.list.thread u = s.skiplist.list.thread u) :
    Follows (s.put skiplist t pc) r' := by
  refine ⟨?_, hstored, fun u => ?_⟩
  · rw [hr'.len]
    exact hr'.final
  · by_cases hu : u = t
    · subst hu
      simp only [State.put, Function.update_self]
      exact hcall.agrees hop
    · simp only [State.put, Function.update_of_ne hu]
      rw [hothers u hu]
      exact h.agrees u

/-- A step that leaves the list alone. -/
lemma Follows.same {pc : Pc B} (hlist : s'.skiplist.list = s.skiplist.list)
    (hpc : s'.pc = Function.update s.pc t pc) (hagrees : pc.Agrees (s.skiplist.list.thread t)) :
    Follows s' r := by
  refine ⟨h.follows.trans hlist.symm, h.stored, fun u => ?_⟩
  rw [hlist, hpc]
  by_cases hu : u = t
  · subst hu
    rw [Function.update_self]
    exact hagrees
  · rw [Function.update_of_ne hu]
    exact h.agrees u

end Follows

lemma picked_cases (e1 : Option (BNode B × ℕ)) (result : Option (BNode B)) (accesses : Option ℤ) :
    (∃ e, picked e1 result accesses = .choose e) ∨ ∃ victim, picked e1 result accesses = .evict victim := by
  cases result with
  | none => exact .inl ⟨_, rfl⟩
  | some page =>
    cases accesses with
    | none => exact .inl ⟨_, rfl⟩
    | some n =>
      by_cases hn : n = -1
      · exact .inl ⟨e1, by simp [picked, hn]⟩
      · cases e1 with
        | none => exact .inl ⟨some (page, frequency n), by simp [picked, hn]⟩
        | some e => exact .inr ⟨if e.2 < frequency n then e.1 else page, by simp [picked, hn]⟩

lemma Looks.agrees {x : Get.Act A (BNode B) T} {pc : Pc B} {l : Local A (BNode B)} (h : Looks c s t a x pc)
    (hl : (s.pc t).Agrees l) : pc.Agrees l := by
  cases h with
  | search hpc | choose hpc | searched hpc =>
    rw [hpc] at hl
    exact hl
  | @picked e1 result accesses hpc =>
    rw [hpc] at hl
    rcases picked_cases e1 result accesses with ⟨e, he⟩ | ⟨victim, he⟩
    · rw [he]
      exact hl
    · rw [he]
      exact hl

lemma Looks.not_list {x : Get.Act A (BNode B) T} {pc : Pc B} (h : Looks c s t a x pc)
    (y : LockFree.Act A (BNode B) T) : x ≠ .list y := by
  cases h <;> simp

lemma Answers.agrees {ret : LockFree.Ret (BNode B)} {pc : Pc B} {l : Local A (BNode B)}
    (h : Answers s t ret pc) (hl : l.pc = .idle) : pc.Agrees l := by
  cases h <;> exact hl

/-- The list of the next state, and its run. -/
def Grows (r r' : Trace c.list (BNode B) T) (s : State A B T) (a : Act A B T) (s' : State A B T) : Prop :=
  (s'.skiplist.list = s.skiplist.list ∧ r' = r ∧ ∀ u, s'.pc u = .remove true → s.pc u = .remove true) ∨
    ∃ x, Goes r r' s a s' x

lemma remove_of_update {pc : Pc B} (hne : pc ≠ .remove true)
    (h : Function.update s.pc t pc u = .remove true) : s.pc u = .remove true := by
  by_cases hu : u = t
  · subst hu
    rw [Function.update_self] at h
    exact absurd h hne
  · rwa [Function.update_of_ne hu] at h

lemma Looks.not_remove {x : Get.Act A (BNode B) T} {pc : Pc B} (h : Looks c s t a x pc) :
    pc ≠ .remove true := by
  cases h with
  | search | choose | searched => simp
  | @picked e1 result accesses =>
    rcases picked_cases e1 result accesses with ⟨e, he⟩ | ⟨victim, he⟩ <;> rw [he] <;> simp

lemma Answers.not_remove {ret : LockFree.Ret (BNode B)} {pc : Pc B} (h : Answers s t ret pc) :
    pc ≠ .remove true := by
  cases h <;> simp [IndexCache.removed]

lemma follows_step (h : Follows s r) (hs : Step c s a s') : ∃ r', Follows s' r' ∧ Grows r r' s a s' := by
  cases hs with
  | @call _ t op pc skiplist hcall hstep =>
    obtain ⟨hlist, -⟩ := Get.list_of_step_list hstep
    obtain ⟨r', hr', hstored, hop, -, hothers⟩ := h.call hcall hlist
    refine ⟨r', h.called hcall hr' hstored hop hothers,
      .inr ⟨_, hr', ?_, fun u hu hpc => ?_, .inl ⟨t, op, rfl⟩⟩⟩
    · rintro u op' hx
      cases hx
      exact ⟨pc, hcall, Function.update_self ..⟩
    · simp only [State.put] at hpc
      rwa [Function.update_of_ne fun he => hu he.symm] at hpc
  | @inner x skiplist hi hstep =>
    cases x with
    | list x =>
      obtain ⟨hlist, -⟩ := Get.list_of_step_list hstep
      have hcall : ∀ u op, x ≠ .call u op := by
        rintro u op rfl
        cases hi
      obtain ⟨r', hr', hstored, hagrees⟩ := h.inner hcall hlist
      refine ⟨r', ⟨?_, hstored, fun u => hagrees u _ (h.agrees u)⟩,
        .inr ⟨x, hr', fun u op hx => absurd hx (hcall u op), fun u _ => id, .inr (.inr rfl)⟩⟩
      rw [hr'.len]
      exact hr'.final
    | get u key counts => cases hi
    | ret u => cases hi
    | next u =>
      have hlist := Get.list_of_step hstep (by simp)
      refine ⟨r, ?_, .inl ⟨hlist, rfl, fun u => id⟩⟩
      exact h.same (t := u) hlist (Function.update_eq_self u s.pc).symm (h.agrees u)
  | @answer t ret pc skiplist hdone hanswer hstep =>
    obtain ⟨hlist, -⟩ := Get.list_of_step_list hstep
    obtain ⟨r', hr', hstored, hagrees⟩ := h.inner (by simp) hlist
    refine ⟨r', ⟨?_, hstored, fun u => ?_⟩,
      .inr ⟨_, hr', by simp, fun u _ => remove_of_update hanswer.not_remove, .inr (.inl ⟨t, rfl⟩)⟩⟩
    · rw [hr'.len]
      exact hr'.final
    · by_cases hu : u = t
      · subst hu
        simp only [State.put, Function.update_self]
        apply hanswer.agrees
        have hret : LockFree.step c.list s.skiplist.list (.ret u) = some skiplist.list := hlist
        simp only [LockFree.step, hdone, Option.some.injEq] at hret
        rw [← hret]
        simp [LockFree.State.put, Local.goto]
      · simp only [State.put, Function.update_of_ne hu]
        exact hagrees u _ (h.agrees u)
  | @look _ x t pc skiplist hlook hstep =>
    have hlist := Get.list_of_step hstep hlook.not_list
    exact ⟨r, h.same hlist rfl (hlook.agrees (h.agrees t)),
      .inl ⟨hlist, rfl, fun u => remove_of_update hlook.not_remove⟩⟩
  | @countAdd t hpc =>
    have hagrees := h.agrees t
    rw [hpc] at hagrees
    exact ⟨r, h.same rfl rfl hagrees, .inl ⟨rfl, rfl, fun u => remove_of_update (by simp)⟩⟩
  | @takeRoom t hpc =>
    have hagrees := h.agrees t
    rw [hpc] at hagrees
    refine ⟨r, h.same rfl rfl ?_, .inl ⟨rfl, rfl, fun u => remove_of_update ?_⟩⟩
    · split_ifs <;> exact hagrees
    · split_ifs <;> simp
  | @giveBack t evicts hpc =>
    have hagrees := h.agrees t
    rw [hpc] at hagrees
    exact ⟨r, h.same rfl rfl hagrees, .inl ⟨rfl, rfl, fun u => remove_of_update (by simp [removed])⟩⟩
  | @ret t ret hpc =>
    have hagrees := h.agrees t
    rw [hpc] at hagrees
    exact ⟨r, h.same rfl rfl hagrees, .inl ⟨rfl, rfl, fun u => remove_of_update (by simp)⟩⟩

lemma follows_initial (t : T) : ∃ r : Trace c.list (BNode B) T, r.len = 0 ∧ Follows (initial c) r := by
  refine ⟨⟨0, fun _ => LockFree.initial c.list, fun _ => .ret t, rfl, fun i hi => absurd hi (Nat.not_lt_zero i)⟩,
    rfl, rfl, fun k hk u lb ub => ?_, fun u => rfl⟩
  simp [LockFree.initial]

/-! ### The balance -/

section Balance

variable [Fintype T]

/-- The room and the live entries make up the capacity, but for the calls in progress. -/
def Balanced (c : Config A) (s : State A B T) : Prop :=
  s.skiplist_room_entries + held c.list s.skiplist.list = c.all_page_cnt + ∑ u, (s.pc u).owes

/-- A step of a thread from one place to another. -/
lemma Balanced.move {pc : Pc B} (h : Balanced c s) (hpc : s'.pc = Function.update s.pc t pc)
    (hmove : s'.skiplist_room_entries + held c.list s'.skiplist.list - pc.owes =
      s.skiplist_room_entries + held c.list s.skiplist.list - (s.pc t).owes) : Balanced c s' := by
  rw [Balanced] at h ⊢
  have hsum := sum_update Pc.owes s.pc t pc
  rw [hpc, hsum]
  omega

def Act.thread : Act A B T → T
  | .add t _ | .search t _ | .invalidate t _ | .choose t _ | .next t | .ret t => t
  | .skiplist (.list a) => a.thread
  | .skiplist (.get t _ _) | .skiplist (.next t) | .skiplist (.ret t) => t

lemma Balanced.quiet (h : Balanced c s) (hf : Follows s r) (hidle : ∀ t, s.pc t = .idle) :
    s.skiplist_room_entries = c.all_page_cnt - s.live c := by
  have hpc : ∑ u, (s.pc u).owes = 0 := Finset.sum_eq_zero fun u _ => by rw [hidle]; rfl
  have hlist : ∑ u, (s.skiplist.list.thread u).owes = 0 := by
    refine Finset.sum_eq_zero fun u _ => ?_
    have hagrees := hf.agrees u
    rw [hidle] at hagrees
    exact Local.owes_idle hagrees
  rw [Balanced, held, hpc, hlist] at h
  rw [State.live, State.memory]
  omega

/-! ### The capacity -/

/-- The removals of evictions find something, and the room lacks no more than they will give back. -/
structure Keeps (c : Config A) (s : State A B T) (r : Trace c.list (BNode B) T) : Prop extends
    Follows s r where
  secure : ∀ t, s.pc t = .remove true → Secure r t r.len
  room : 0 ≤ s.skiplist_room_entries + ∑ u, (s.pc u).evicting

/-- A step of a thread that takes no more from the room than it promises to give back. -/
lemma Keeps.move {pc : Pc B} (h : Keeps c s r) (hpc : s'.pc = Function.update s.pc t pc)
    (hmove : s.skiplist_room_entries + (s.pc t).evicting ≤ s'.skiplist_room_entries + pc.evicting) :
    0 ≤ s'.skiplist_room_entries + ∑ u, (s'.pc u).evicting := by
  have hsum := sum_update Pc.evicting s.pc t pc
  have hroom := h.room
  rw [hpc, hsum]
  omega

end Balance

/-! ### Evictions of one entry -/

def onePage : Config ℕ := ⟨⟨0, 1, Nat.zero_ne_one⟩, 1, 1⟩

def pageOf (key_low key_high : ℤ) : BNode ℕ := (BNode.new : BNode ℕ).setRange key_low key_high

section Acts

variable {T : Type} (t : T) (n : ℕ)

def inList : List (Act ℕ ℕ T) := List.replicate n (.skiplist (.list (.next t false)))

/-- An insertion of `n` accesses, up to its return. -/
def addPage (page : BNode ℕ) (newNode : ℕ) : List (Act ℕ ℕ T) :=
  .add t page :: .skiplist (.list (.allocate t newNode 0)) :: inList t n

/-- From the return of the insertion to the decision whether to evict. -/
def settle : List (Act ℕ ℕ T) := [.next t, .next t, .next t]

instance [Inhabited T] : Inhabited (Act ℕ ℕ T) := ⟨.next default⟩

end Acts

def Pc.evicts : Pc B → Bool
  | .evict _ => true
  | _ => false

def Pc.isIdle : Pc B → Bool
  | .idle => true
  | _ => false

lemma idle_of_isIdle {pc : Pc B} (h : pc.isIdle = true) : pc = .idle := by
  cases pc with
  | idle => rfl
  | _ => cases h

end ObjectCache.Sherman.IndexCache
