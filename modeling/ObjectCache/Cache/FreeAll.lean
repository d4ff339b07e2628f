import ObjectCache.Cache.Lifetime

/-! `free_all_tmp_objects`, called by a thread on its own limbo list. -/

namespace ObjectCache.Cache.Buffers

open Lib

set_option linter.unusedSectionVars false

variable {T : Type} [DecidableEq T] {g : Geometry} {s : State T}

/-- The store, and the counters deleted so far. -/
structure Clearing (T : Type) where
  store : Store T
  deleted : List Ref

namespace Clearing

def setTasks (c : Clearing T) (t : T) (tasks : List DeallocTask) : Clearing T :=
  { c with store := c.store.setDeallocPool t tasks }

def free (c : Clearing T) (b : ℕ) (ref : Ref) : Clearing T :=
  ⟨c.store.deallocate (some b), ref :: c.deleted⟩

end Clearing

/-- The loop over the tasks; `error` is where the assertion has stopped the process. -/
def freeTasks (t : T) : List DeallocTask → Clearing T → Except (Clearing T) (Clearing T)
  | [], c => .ok c
  | task :: tasks, c =>
    let c := c.setTasks t tasks
    if c.store.counter task.ref_counter ≤ 1 then
      match task.local_ptr with
      | none => freeTasks t tasks c
      | some b => freeTasks t tasks (c.free b task.ref_counter)
    else .error c

def freeAll (s : Store T) (t : T) : Except (Clearing T) (Clearing T) :=
  freeTasks t (s.dealloc_pool t) ⟨s, []⟩

section Loop

variable {t : T} {tasks : List DeallocTask} {c : Clearing T}

@[simp] lemma setTasks_counter : (c.setTasks t tasks).store.counter = c.store.counter := rfl

@[simp] lemma setTasks_deallocations :
    (c.setTasks t tasks).store.deallocations = c.store.deallocations := rfl

@[simp] lemma setTasks_deleted : (c.setTasks t tasks).deleted = c.deleted := rfl

@[simp] lemma free_counter (b : ℕ) (ref : Ref) : (c.free b ref).store.counter = c.store.counter := rfl

@[simp] lemma free_deallocations (b : ℕ) (ref : Ref) :
    (c.free b ref).store.deallocations = b :: c.store.deallocations := rfl

@[simp] lemma free_deleted (b : ℕ) (ref : Ref) : (c.free b ref).deleted = ref :: c.deleted := rfl

/-- A count above one anywhere in the list reaches the assertion. -/
lemma freeTasks_stops (h : ∃ task ∈ tasks, 1 < c.store.counter task.ref_counter) :
    ∃ c', freeTasks t tasks c = .error c' := by
  induction tasks generalizing c with
  | nil =>
    obtain ⟨task, hm, -⟩ := h
    cases hm
  | cons task tasks ih =>
    by_cases hle : (c.setTasks t tasks).store.counter task.ref_counter ≤ 1
    · have hrest : ∃ task ∈ tasks, 1 < c.store.counter task.ref_counter := by
        obtain ⟨x, hx, hlt⟩ := h
        rcases List.mem_cons.mp hx with rfl | hx
        · exact absurd hle (not_le.mpr hlt)
        · exact ⟨x, hx, hlt⟩
      simp only [freeTasks, if_pos hle]
      cases task.local_ptr with
      | none =>
        apply ih
        exact hrest
      | some b =>
        apply ih
        exact hrest
    · exact ⟨c.setTasks t tasks, by simp only [freeTasks, if_neg hle]⟩

/-- With every count at most one, each task's buffer and counter are given back, in order. -/
lemma freeTasks_returns (h : ∀ task ∈ tasks, c.store.counter task.ref_counter ≤ 1)
    (hptr : ∀ task ∈ tasks, task.local_ptr ≠ none) :
    ∃ c', freeTasks t tasks c = .ok c' ∧
      c'.store.deallocations =
        (tasks.filterMap (·.local_ptr)).reverse ++ c.store.deallocations ∧
      c'.deleted = (tasks.map (·.ref_counter)).reverse ++ c.deleted := by
  induction tasks generalizing c with
  | nil => exact ⟨c, rfl, rfl, rfl⟩
  | cons task tasks ih =>
    have hle : (c.setTasks t tasks).store.counter task.ref_counter ≤ 1 := h task List.mem_cons_self
    have hne := hptr task List.mem_cons_self
    simp only [freeTasks, if_pos hle]
    cases hb : task.local_ptr with
    | none => exact absurd hb hne
    | some b =>
      have hrest : ∀ x ∈ tasks, x.local_ptr ≠ none := fun x hx => hptr x (List.mem_cons_of_mem _ hx)
      obtain ⟨c', hc', hd, hr⟩ := ih (c := (c.setTasks t tasks).free b task.ref_counter)
        (fun x hx => h x (List.mem_cons_of_mem _ hx)) hrest
      refine ⟨c', hc', ?_, ?_⟩
      · rw [hd, List.filterMap_cons_some hb]
        simp
      · rw [hr]
        simp

end Loop

variable [Fintype T]

/-- The call stops at its assertion, or gives back only buffers that no object is on. -/
def State.FreesUnused (s : State T) (t : T) : Prop :=
  ∀ c, freeAll s.store t = .ok c →
    ∃ freed, c.store.deallocations = freed ++ s.store.deallocations ∧ ∀ b ∈ freed, s.live b = 0

/-- A task's count is the number of objects on its buffer: the line has given its own up. -/
lemma counter_of_limbo (h : (machine g T).Reachable s) {t : T} {task : DeallocTask} {b : ℕ}
    (hm : task ∈ s.store.dealloc_pool t) (hb : task.local_ptr = some b) :
    s.store.counter task.ref_counter = s.live b := by
  obtain ⟨hc, hbooks⟩ := reachable_books h
  obtain ⟨d, hd, hdb, hcount⟩ := at_of_limbo hc hbooks (.inl hm) hb
  rw [live_eq_references hbooks hd hdb]
  exact hcount

lemma ptr_of_limbo (h : (machine g T).Reachable s) {t : T} {task : DeallocTask}
    (hm : task ∈ s.store.dealloc_pool t) : ∃ b, task.local_ptr = some b :=
  Option.ne_none_iff_exists'.mp ((reachable_books h).2.limbo t task hm).1

/-- No counter is deleted twice. -/
theorem freeAll_deletes_once (h : (machine g T).Reachable s) {t : T} {c : Clearing T}
    (hc : freeAll s.store t = .ok c) : c.deleted.Nodup := by
  by_cases hstop : ∃ task ∈ s.store.dealloc_pool t, 1 < s.store.counter task.ref_counter
  · obtain ⟨c', hc'⟩ := freeTasks_stops (t := t) (c := ⟨s.store, []⟩) hstop
    rw [freeAll, hc'] at hc
    cases hc
  · push Not at hstop
    obtain ⟨c', hc', -, hr⟩ := freeTasks_returns (t := t) (c := ⟨s.store, []⟩) hstop
      fun task hm => ((reachable_books h).2.limbo t task hm).1
    rw [freeAll, hc'] at hc
    cases hc
    rw [hr, List.append_nil]
    exact List.nodup_reverse.mpr ((reachable_books h).2.limbo_nodup t)

/-- The assertion allows a count of one, which is the count of a buffer with one object on it. -/
theorem freesUnused_iff (h : (machine g T).Reachable s) (t : T) :
    s.FreesUnused t ↔
      (∃ task ∈ s.store.dealloc_pool t, ∃ b, task.local_ptr = some b ∧ 2 ≤ s.live b) ∨
      ∀ task ∈ s.store.dealloc_pool t, ∀ b, task.local_ptr = some b → s.live b = 0 := by
  by_cases hstop : ∃ task ∈ s.store.dealloc_pool t, 1 < s.store.counter task.ref_counter
  · refine iff_of_true ?_ (.inl ?_)
    · intro c hc
      obtain ⟨c', hc'⟩ := freeTasks_stops (t := t) (c := ⟨s.store, []⟩) hstop
      rw [freeAll, hc'] at hc
      cases hc
    · obtain ⟨task, hm, hlt⟩ := hstop
      obtain ⟨b, hb⟩ := ptr_of_limbo h hm
      rw [counter_of_limbo h hm hb] at hlt
      exact ⟨task, hm, b, hb, by omega⟩
  · push Not at hstop
    obtain ⟨c, hc, hd, -⟩ := freeTasks_returns (t := t) (c := ⟨s.store, []⟩) hstop
      fun task hm => ((reachable_books h).2.limbo t task hm).1
    have hfreed : s.FreesUnused t ↔
        ∀ b ∈ ((s.store.dealloc_pool t).filterMap (·.local_ptr)).reverse, s.live b = 0 := by
      constructor
      · intro hf
        obtain ⟨freed, heq, hfreed⟩ := hf c hc
        rw [hd] at heq
        rwa [List.append_cancel_right heq]
      · intro hf c' hc'
        cases hc.symm.trans hc'
        exact ⟨_, hd, hf⟩
    have hnot : ¬ ∃ task ∈ s.store.dealloc_pool t, ∃ b, task.local_ptr = some b ∧ 2 ≤ s.live b := by
      rintro ⟨task, hm, b, hb, hlive⟩
      have hle := hstop task hm
      rw [counter_of_limbo h hm hb] at hle
      omega
    rw [hfreed, or_iff_right hnot]
    simp only [List.mem_reverse, List.mem_filterMap]
    constructor
    · intro hf task hm b hb
      exact hf b ⟨task, hm, hb⟩
    · rintro hf b ⟨task, hm, hb⟩
      exact hf task hm b hb

/-! ### One object, one replacement -/

/-- Thread `false` keeps its object while `true` replaces the buffer under it. -/
def replaceUnderObject : List (Act Bool) :=
  .read false request :: List.replicate 15 (.next false) ++ [.invalidate 0] ++
  .read true request :: List.replicate 15 (.next true)

lemma init_emptyCache : (machine oneLine Bool).init emptyCache :=
  ⟨fun _ => ⟨rfl, rfl, rfl, rfl, rfl⟩, fun _ => rfl, rfl⟩

def replaceUnderObjectRun : (machine oneLine Bool).Run :=
  .ofActs (machine oneLine Bool) emptyCache replaceUnderObject init_emptyCache (by decide +kernel)

theorem freesUnused_replaceUnderObject :
    (replaceUnderObjectRun.state replaceUnderObjectRun.len).FreesUnused true ↔
      (∃ task ∈ (replaceUnderObjectRun.state replaceUnderObjectRun.len).store.dealloc_pool true, ∃ b,
        task.local_ptr = some b ∧
          2 ≤ (replaceUnderObjectRun.state replaceUnderObjectRun.len).live b) ∨
      ∀ task ∈ (replaceUnderObjectRun.state replaceUnderObjectRun.len).store.dealloc_pool true, ∀ b,
        task.local_ptr = some b →
          (replaceUnderObjectRun.state replaceUnderObjectRun.len).live b = 0 :=
  freesUnused_iff (replaceUnderObjectRun.reachable _ le_rfl) true

/-- The buffer that the object of `false` is on is given back, with the counter it will decrement. -/
theorem not_freesUnused :
    (machine oneLine Bool).Reachable (replaceUnderObjectRun.state replaceUnderObjectRun.len) ∧
      ¬ (replaceUnderObjectRun.state replaceUnderObjectRun.len).FreesUnused true := by
  refine ⟨replaceUnderObjectRun.reachable _ le_rfl, fun h => ?_⟩
  have hback : (freeAll (replaceUnderObjectRun.state replaceUnderObjectRun.len).store true).toOption.map
      (·.store.deallocations) = some [0] := by decide +kernel
  have hnone : (replaceUnderObjectRun.state replaceUnderObjectRun.len).store.deallocations = [] := by
    decide +kernel
  have hlive : (replaceUnderObjectRun.state replaceUnderObjectRun.len).live 0 = 1 := by decide +kernel
  cases hc : freeAll (replaceUnderObjectRun.state replaceUnderObjectRun.len).store true with
  | error c =>
    rw [hc] at hback
    cases hback
  | ok c =>
    have hd : c.store.deallocations = [0] := by
      rw [hc] at hback
      exact Option.some.inj hback
    obtain ⟨freed, heq, hfreed⟩ := h c hc
    rw [hd, hnone, List.append_nil] at heq
    have h0 := hfreed 0 (by rw [← heq]; exact List.mem_singleton_self 0)
    omega

end ObjectCache.Cache.Buffers
