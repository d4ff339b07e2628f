import ObjectCache.Cache.Ledger
import Mathlib.Tactic.Ring

/-! Every move of the account keeps the books in order. -/

namespace ObjectCache.Cache.Buffers.Ledger

open Lib

set_option linter.unusedSectionVars false

variable {T : Type} [DecidableEq T] [Fintype T] {l l' : Ledger T} {ref : Ref} {d e : Place T}

namespace Books

lemma at_unique (h : Books l) (hd : l.At ref d) (he : l.At ref e) : d = e :=
  (h.refs ref).unique hd he

lemma held_unique (h : Books l) {b : ℕ} {c c' : Custody T} (hc : l.Held b c) (hc' : l.Held b c') :
    c = c' :=
  (h.buffers b).unique hc hc'

end Books

/-! ### Who uses a counter -/

lemma references_pos {obj : Option ℕ} (h : l.Uses obj ref) : 0 < l.references ref := by
  unfold references
  rcases h with h | ⟨t, h⟩
  · have : 0 < l.store.objects.countP (·.counts ref) :=
      List.countP_pos_iff.mpr ⟨_, h, by simp [CachedObject.counts]⟩
    omega
  · have : 0 < (Finset.univ.filter fun t => (l.role t).returns ref).card :=
      Finset.card_pos.mpr ⟨t, by
        rw [Finset.mem_filter, h]
        exact ⟨Finset.mem_univ t, decide_eq_true rfl⟩⟩
    omega

lemma uses_of_references (h : l.references ref ≠ 0) : ∃ obj, l.Uses obj ref := by
  by_contra hno
  apply h
  have ho : l.store.objects.countP (·.counts ref) = 0 := by
    refine List.countP_eq_zero.mpr fun o hm => ?_
    cases o with
    | counted obj r =>
      rintro hr
      have : r = ref := by simpa [CachedObject.counts] using hr
      exact hno ⟨obj, .inl (this ▸ hm)⟩
    | empty | temp => simp [CachedObject.counts]
  have hr : (Finset.univ.filter fun t => (l.role t).returns ref).card = 0 := by
    refine Finset.card_eq_zero.mpr (Finset.filter_eq_empty_iff.mpr fun t _ => ?_)
    cases hrole : l.role t with
    | pending obj r =>
      rintro hr
      have : r = ref := by simpa [Role.returns] using hr
      exact hno ⟨obj, .inr ⟨t, this ▸ hrole⟩⟩
    | free | hand => simp [Role.returns]
  simp [references, ho, hr]

/-- Nobody uses a counter that has no buffer. -/
lemma Books.references_eq_zero (h : Books l) (hd : l.At ref d) (hb : d.buffer = none) :
    l.references ref = 0 := by
  by_contra hne
  obtain ⟨obj, hu⟩ := uses_of_references hne
  obtain ⟨e, b, -, he, hbe⟩ := h.named obj ref hu
  rw [h.at_unique he hd, hb] at hbe
  cases hbe

lemma references_setRole (l : Ledger T) (t : T) (r : Role) (ref : Ref) :
    (l.setRole t r).references ref + (if (l.role t).returns ref then 1 else 0) =
      l.references ref + (if r.returns ref then 1 else 0) := by
  have hr := card_filter_update (Role.returns ref) l.role t r
  exact (Nat.add_assoc ..).trans ((congrArg (_ + ·) hr).trans (Nat.add_assoc ..).symm)

lemma references_setObject (l : Ledger T) {k : ℕ} {old : CachedObject}
    (h : l.store.objects[k]? = some old) (o : CachedObject) (ref : Ref) :
    (l.setStore (l.store.setObject k o)).references ref + (if old.counts ref then 1 else 0) =
      l.references ref + (if o.counts ref then 1 else 0) := by
  have ho := countP_set_add (CachedObject.counts ref) h o
  exact (Nat.add_right_comm ..).trans ((congrArg (· + _) ho).trans (Nat.add_right_comm ..))

lemma references_construct (l : Ledger T) (o : CachedObject) (ref : Ref) :
    (l.setStore (l.store.construct o)).references ref =
      l.references ref + (if o.counts ref then 1 else 0) := by
  have ho : (l.store.objects ++ [o]).countP (CachedObject.counts ref) = _ := List.countP_append
  rw [List.countP_singleton] at ho
  exact (congrArg (· + _) ho).trans (Nat.add_right_comm ..)

lemma references_congr (ref : Ref) (ho : l'.store.objects = l.store.objects)
    (hr : l'.role = l.role) : l'.references ref = l.references ref := by
  rw [references, references, ho, hr]

lemma references_setCounter (l : Ledger T) (r : Ref) (n : ℤ) (ref : Ref) :
    (l.setStore (l.store.setCounter r n)).references ref = l.references ref := rfl

/-- An object on no fetched buffer leaves the others where they are. -/
lemma construct_temp_iff (l : Ledger T) {o : CachedObject}
    (ho : ∀ b pre, o ≠ .temp (.fetched b) pre) (k b : ℕ) (pre : Option ℕ) :
    (l.store.construct o).objects[k]? = some (.temp (.fetched b) pre) ↔
      l.store.objects[k]? = some (.temp (.fetched b) pre) := by
  simp only [Store.construct]
  rcases Nat.lt_trichotomy k l.store.objects.length with hk | rfl | hk
  · rw [List.getElem?_append_left hk]
  · simpa using ho b pre
  · rw [List.getElem?_eq_none (by simp; omega), List.getElem?_eq_none (by omega)]

/-! ### Moves of one counter -/

/-- A counter that takes its buffer along. -/
lemma Placed.relocate (h : Placed l) (hd : l.At ref d) (hb : e.buffer = d.buffer)
    (hat : ∀ r e', l'.At r e' ↔ r = ref ∧ e' = e ∨ r ≠ ref ∧ l.At r e')
    (hdata : ∀ i, (l'.line i).phase.data = (l.line i).phase.data)
    (hobj : l'.store.objects = l.store.objects)
    (hlog : l'.store.deallocations = l.store.deallocations)
    (hbuf : l'.store.next_buffer = l.store.next_buffer)
    (huses : ∀ obj r, l'.Uses obj r → l.Uses obj r) : Placed l' := by
  have hx : ∀ e', l'.At ref e' ↔ e' = e := fun e' => by simp [hat]
  have ho : ∀ r, r ≠ ref → ∀ e', l'.At r e' ↔ l.At r e' := fun r hr e' => by simp [hat, hr]
  have hcounted : ∀ r b, (∃ d, l'.At r d ∧ d.buffer = some b) ↔
      ∃ d, l.At r d ∧ d.buffer = some b := by
    intro r b
    by_cases hr : r = ref
    · subst hr
      constructor
      · rintro ⟨e', he', heb⟩
        rw [(hx e').mp he', hb] at heb
        exact ⟨d, hd, heb⟩
      · rintro ⟨d', hd', hdb⟩
        rw [(h.refs r).unique hd' hd, ← hb] at hdb
        exact ⟨e, (hx e).mpr rfl, hdb⟩
    · exact exists_congr fun d' => and_congr_left fun _ => ho r hr d'
  refine ⟨existsUnique_move h.refs hx ho, existsUnique_of_iff h.buffers fun b c => ?_, ?_⟩
  · cases c with
    | unfetched => simp [Held, hbuf]
    | reading i => simp [Held, hdata]
    | counted r => exact hcounted r b
    | temp k => simp [Held, hobj]
    | deallocated => simp [Held, hlog]
  · intro obj r hu
    obtain ⟨d', b, rfl, hd', hdb⟩ := h.named obj r (huses obj r hu)
    obtain ⟨e', he', heb⟩ := (hcounted r b).mpr ⟨d', hd', hdb⟩
    exact ⟨e', b, rfl, he', heb⟩

/-- A counter that goes back to a pool, its buffer to the memory pool. -/
lemma Placed.retire (h : Placed l) {t : T} (hd : l.At ref d)
    (hat : ∀ r e', l'.At r e' ↔ r = ref ∧ e' = .pooled t ∨ r ≠ ref ∧ l.At r e')
    (hdata : ∀ i, (l'.line i).phase.data = (l.line i).phase.data)
    (hobj : l'.store.objects = l.store.objects)
    (hlog : ∀ b, b ∈ l'.store.deallocations ↔ d.buffer = some b ∨ b ∈ l.store.deallocations)
    (hbuf : l'.store.next_buffer = l.store.next_buffer)
    (huses : ∀ obj r, l'.Uses obj r → l.Uses obj r) (hfree : l.references ref = 0) :
    Placed l' := by
  have hx : ∀ e', l'.At ref e' ↔ e' = .pooled t := fun e' => by simp [hat]
  have ho : ∀ r, r ≠ ref → ∀ e', l'.At r e' ↔ l.At r e' := fun r hr e' => by simp [hat, hr]
  have hcounted : ∀ r b, (∃ d, l'.At r d ∧ d.buffer = some b) ↔
      r ≠ ref ∧ ∃ d, l.At r d ∧ d.buffer = some b := by
    intro r b
    by_cases hr : r = ref
    · subst hr
      refine iff_of_false ?_ fun hn => hn.1 rfl
      rintro ⟨e', he', heb⟩
      rw [(hx e').mp he'] at heb
      cases heb
    · simp only [ne_eq, hr, not_false_eq_true, true_and]
      exact exists_congr fun d' => and_congr_left fun _ => ho r hr d'
  refine ⟨existsUnique_move h.refs hx ho, fun b => ?_, ?_⟩
  · have hheld : ∀ c, c ≠ .deallocated → c ≠ .counted ref → (l'.Held b c ↔ l.Held b c) := by
      intro c hc hcr
      cases c with
      | unfetched => simp [Held, hbuf]
      | reading i => simp [Held, hdata]
      | counted r =>
        refine (hcounted r b).trans (and_iff_right ?_)
        rintro rfl
        exact hcr rfl
      | temp k => simp [Held, hobj]
      | deallocated => exact absurd rfl hc
    obtain ⟨c, hc, hcu⟩ := h.buffers b
    by_cases hb : d.buffer = some b
    · have hcr : c = .counted ref := (hcu (.counted ref) ⟨d, hd, hb⟩).symm
      refine ⟨.deallocated, (hlog b).mpr (.inl hb), fun c' hc' => ?_⟩
      by_contra hne
      by_cases hcr' : c' = .counted ref
      · subst hcr'
        exact ((hcounted ref b).mp hc').1 rfl
      · exact hcr' ((hcu c' ((hheld c' hne hcr').mp hc')).trans hcr)
    · have hkeep : ∀ c', l'.Held b c' ↔ l.Held b c' := by
        intro c'
        by_cases hcd : c' = .deallocated
        · subst hcd
          exact (hlog b).trans (or_iff_right hb)
        · by_cases hcr : c' = .counted ref
          · subst hcr
            refine iff_of_false (fun hm => ((hcounted ref b).mp hm).1 rfl) ?_
            rintro ⟨d', hd', hdb⟩
            rw [(h.refs ref).unique hd' hd] at hdb
            exact hb hdb
          · exact hheld c' hcd hcr
      exact ⟨c, (hkeep c).mpr hc, fun c' hc' => hcu c' ((hkeep c').mp hc')⟩
  · intro obj r hu
    obtain ⟨d', b, rfl, hd', hdb⟩ := h.named obj r (huses obj r hu)
    have hr : r ≠ ref := by
      rintro rfl
      exact absurd hfree (references_pos (huses _ _ hu)).ne'
    obtain ⟨e', he', heb⟩ := (hcounted r b).mpr ⟨hr, d', hd', hdb⟩
    exact ⟨e', b, rfl, he', heb⟩

/-- No counter moves. -/
lemma Placed.keep (h : Placed l) (hat : ∀ r e, l'.At r e ↔ l.At r e)
    (hheld : ∀ b, ∃! c, l'.Held b c) (huses : ∀ obj r, l'.Uses obj r → l.Named obj r) :
    Placed l' := by
  refine ⟨existsUnique_of_iff h.refs hat, hheld, fun obj r hu => ?_⟩
  obtain ⟨d, b, hb, hd, hdb⟩ := huses obj r hu
  exact ⟨d, b, hb, (hat r d).mpr hd, hdb⟩

lemma held_counted_iff (hat : ∀ r e, l'.At r e ↔ l.At r e) (b : ℕ) (r : Ref) :
    l'.Held b (.counted r) ↔ l.Held b (.counted r) :=
  exists_congr fun e => and_congr_left fun _ => hat r e

/-- Nothing changes hands. -/
lemma Placed.same (h : Placed l) (hat : ∀ r e, l'.At r e ↔ l.At r e)
    (hdata : ∀ i, (l'.line i).phase.data = (l.line i).phase.data)
    (hobj : ∀ (k b : ℕ) pre, l'.store.objects[k]? = some (CachedObject.temp (.fetched b) pre) ↔
      l.store.objects[k]? = some (CachedObject.temp (.fetched b) pre))
    (hlog : l'.store.deallocations = l.store.deallocations)
    (hbuf : l'.store.next_buffer = l.store.next_buffer)
    (huses : ∀ obj r, l'.Uses obj r → l.Named obj r) : Placed l' := by
  refine h.keep hat (existsUnique_of_iff h.buffers fun b c => ?_) huses
  cases c with
  | unfetched => simp [Held, hbuf]
  | reading i => simp [Held, hdata]
  | counted r => exact held_counted_iff hat b r
  | temp k => exact exists_congr (hobj k b)
  | deallocated => simp [Held, hlog]

/-! ### The limbo list -/

lemma books_rotate (h : Books l) {t : T} {task : DeallocTask} {tasks : List DeallocTask}
    (hp : l.store.dealloc_pool t = task :: tasks) :
    Books (l.setStore (l.store.setDeallocPool t (tasks ++ [task]))) := by
  have hperm : ∀ u, ((l.store.setDeallocPool t (tasks ++ [task])).dealloc_pool u).Perm
      (l.store.dealloc_pool u) := by
    intro u
    by_cases hu : u = t
    · subst hu
      simp only [Store.setDeallocPool, Function.update_self, hp]
      exact List.perm_append_singleton task tasks
    · simp [Store.setDeallocPool, hu]
  have hat : ∀ ref d, (l.setStore (l.store.setDeallocPool t (tasks ++ [task]))).At ref d ↔
      l.At ref d := by
    intro ref d
    cases d with
    | limbo u b =>
      refine exists_congr fun x => ?_
      rw [setStore_store, (hperm u).mem_iff]
    | unmade | pooled | line | hand => rfl
  exact {
    h.toPlaced.same hat (fun _ => rfl) (fun _ _ _ => Iff.rfl) rfl rfl h.named with
    line := h.line
    limbo := fun u x hx => h.limbo u x ((hperm u).mem_iff.mp hx)
    hand := h.hand
    zero := h.zero
    limbo_nodup := fun u => ((hperm u).map _).nodup_iff.mpr (h.limbo_nodup u)
    pool_nodup := h.pool_nodup
    log := h.log }

lemma Books.at_limbo (h : Books l) {t : T} {task : DeallocTask}
    (hm : task ∈ l.store.dealloc_pool t) :
    ∃ b, task.local_ptr = some b ∧ l.At task.ref_counter (.limbo t b) := by
  obtain ⟨b, hb⟩ := Option.ne_none_iff_exists'.mp (h.limbo t task hm).1
  exact ⟨b, hb, task, hm, rfl, hb⟩

/-- Where a counter is not. -/
lemma Books.not_at (h : Books l) (hd : l.At ref d) (hne : e ≠ d) : ¬ l.At ref e :=
  fun he => hne (h.at_unique he hd)

lemma references_setRole_eq (t : T) {r : Role} (hn : ∀ ref, (l.role t).returns ref = false)
    (hr : ∀ ref, r.returns ref = false) (ref : Ref) :
    (l.setRole t r).references ref = l.references ref := by
  have hs := references_setRole l t r ref
  simpa [hn, hr] using hs

lemma uses_setRole {t : T} {r : Role} (hr : ∀ ref, r.returns ref = false) {obj : Option ℕ}
    (hu : (l.setRole t r).Uses obj ref) : l.Uses obj ref := by
  rcases hu with hu | ⟨u, hu⟩
  · exact .inl hu
  · by_cases hut : u = t
    · subst hut
      have hn := hr ref
      rw [setRole_role, Function.update_self] at hu
      simp [hu, Role.returns] at hn
    · exact .inr ⟨u, by simpa [hut] using hu⟩

lemma books_take (h : Books l) {t : T} {task : DeallocTask} {tasks : List DeallocTask}
    (hr : l.role t = .free) (hp : l.store.dealloc_pool t = task :: tasks)
    (hz : l.store.counter task.ref_counter = 0) :
    Books ((l.setStore (l.store.setDeallocPool t tasks)).setRole t (.hand task)) := by
  have hm : task ∈ l.store.dealloc_pool t := by simp [hp]
  obtain ⟨b, hb, hd⟩ := h.at_limbo hm
  have hnodup := h.limbo_nodup t
  rw [hp, List.map_cons, List.nodup_cons] at hnodup
  have hrefs : ∀ ref, ((l.setStore (l.store.setDeallocPool t tasks)).setRole t
      (.hand task)).references ref = l.references ref :=
    references_setRole_eq (l := l.setStore _) t (fun _ => by rw [setStore_role, hr]; rfl)
      fun _ => rfl
  have hmem : ∀ u x, x ∈ (l.store.setDeallocPool t tasks).dealloc_pool u →
      x ∈ l.store.dealloc_pool u := by
    intro u x hx
    by_cases hu : u = t
    · subst hu
      rw [hp]
      exact List.mem_cons_of_mem _ (by simpa [Store.setDeallocPool] using hx)
    · simpa [Store.setDeallocPool, hu] using hx
  have hat : ∀ r e, ((l.setStore (l.store.setDeallocPool t tasks)).setRole t (.hand task)).At r e ↔
      r = task.ref_counter ∧ e = .hand t b ∨ r ≠ task.ref_counter ∧ l.At r e := by
    intro r e
    have hu : r = task.ref_counter → l.At r e → e = .limbo t b := by
      rintro rfl he
      exact h.at_unique he hd
    cases e with
    | unmade | pooled u | line i x => grind [At, setRole, setStore, Store.setDeallocPool]
    | limbo u x | hand u x =>
      by_cases hut : u = t
      · subst hut
        simp only [At, setRole_store, setStore_store, setRole_role, setStore_role,
          Store.setDeallocPool, Function.update_self] at hu ⊢
        grind
      · simp only [At, setRole_store, setStore_store, setRole_role, setStore_role,
          Store.setDeallocPool, ne_eq, hut, not_false_eq_true, Function.update_of_ne] at hu ⊢
        grind
  have hplaced : Placed ((l.setStore (l.store.setDeallocPool t tasks)).setRole t (.hand task)) :=
    h.toPlaced.relocate hd (e := .hand t b) rfl hat (fun _ => rfl) rfl rfl rfl
      fun obj r hu => uses_setRole (fun _ => rfl) hu
  refine ⟨hplaced, fun i x hx => ?_, fun u x hx => ?_, fun u x hx => ?_, fun i x hx => ?_,
    fun u => ?_, h.pool_nodup, h.log⟩
  · rw [hrefs]
    exact h.line i x hx
  · rw [hrefs]
    exact h.limbo u x (hmem u x hx)
  · rw [hrefs]
    by_cases hu : u = t
    · subst hu
      obtain rfl : task = x := by simpa using hx
      have hc := (h.limbo u task hm).2
      rw [hz] at hc
      exact ⟨by simp [hb], hz, by exact_mod_cast hc.symm⟩
    · exact h.hand u x (by simpa [hu] using hx)
  · rw [hrefs]
    exact h.zero i x hx
  · by_cases hu : u = t
    · subst hu
      simpa [Store.setDeallocPool] using hnodup.2
    · simpa [Store.setDeallocPool, hu] using h.limbo_nodup u

lemma deallocate_counter (s : Store T) (b : Option ℕ) : (s.deallocate b).counter = s.counter := by
  cases b <;> rfl

@[simp] lemma deallocate_objects (s : Store T) (b : Option ℕ) :
    (s.deallocate b).objects = s.objects := by
  cases b <;> rfl

@[simp] lemma deallocate_next_ref (s : Store T) (b : Option ℕ) :
    (s.deallocate b).next_ref = s.next_ref := by
  cases b <;> rfl

@[simp] lemma deallocate_next_buffer (s : Store T) (b : Option ℕ) :
    (s.deallocate b).next_buffer = s.next_buffer := by
  cases b <;> rfl

@[simp] lemma deallocate_reference_pool (s : Store T) (b : Option ℕ) :
    (s.deallocate b).reference_pool = s.reference_pool := by
  cases b <;> rfl

@[simp] lemma deallocate_dealloc_pool (s : Store T) (b : Option ℕ) :
    (s.deallocate b).dealloc_pool = s.dealloc_pool := by
  cases b <;> rfl

lemma mem_deallocate (s : Store T) (b : Option ℕ) (x : ℕ) :
    x ∈ (s.deallocate b).deallocations ↔ b = some x ∨ x ∈ s.deallocations := by
  cases b with
  | none => simp [Store.deallocate]
  | some b => simp [Store.deallocate, eq_comm]

/-- A buffer someone answers for has not been given back. -/
lemma Books.deallocate_nodup (h : Books l) {b : Option ℕ} (hd : l.At ref d) (hb : d.buffer = b) :
    (l.store.deallocate b).deallocations.Nodup := by
  cases b with
  | none => exact h.log
  | some b =>
    refine List.nodup_cons.mpr ⟨fun hm => ?_, h.log⟩
    have hc : l.Held b (.counted ref) := ⟨d, hd, hb⟩
    have hc' : l.Held b .deallocated := hm
    cases h.held_unique hc hc'

/-- What a move that retires a counter leaves in order. -/
lemma Books.retire (h : Books l) {t : T} (hd : l.At ref d) (hp : ∀ u, d ≠ .pooled u)
    (hfree : l.references ref = 0)
    (hstore : l'.store = (l.store.deallocate d.buffer).releaseRef t ref)
    (hat : ∀ r e', l'.At r e' ↔ r = ref ∧ e' = .pooled t ∨ r ≠ ref ∧ l.At r e')
    (hdata : ∀ i, (l'.line i).phase.data = (l.line i).phase.data)
    (hline : ∀ i, (l'.line i).phase.isGone = false → l'.line i = l.line i)
    (hrole : ∀ u task, l'.role u = .hand task → l.role u = .hand task)
    (hrefs : ∀ r, l'.references r = l.references r)
    (huses : ∀ obj r, l'.Uses obj r → l.Uses obj r) : Books l' := by
  have hcounter : l'.store.counter = l.store.counter := by
    simp [hstore, Store.releaseRef, Store.setReferencePool, deallocate_counter]
  have hlimbo : l'.store.dealloc_pool = l.store.dealloc_pool := by
    simp [hstore, Store.releaseRef, Store.setReferencePool]
  have hlog : l'.store.deallocations = (l.store.deallocate d.buffer).deallocations := by
    simp [hstore, Store.releaseRef, Store.setReferencePool]
  refine ⟨h.toPlaced.retire hd hat hdata ?_ (fun b => ?_) ?_ huses hfree, fun i b hi => ?_,
    fun u task hm => ?_, fun u task hu => ?_, fun i b hi => ?_, fun u => ?_, fun u => ?_, ?_⟩
  · simp [hstore, Store.releaseRef, Store.setReferencePool]
  · rw [hlog]
    exact mem_deallocate l.store d.buffer b
  · simp [hstore, Store.releaseRef, Store.setReferencePool]
  · have hkeep := hline i hi.1
    rw [hkeep] at hi ⊢
    have hl := ((hat _ _).mp hi).resolve_left (fun hr => by cases hr.2)
    rw [hcounter, hrefs, h.line i b hl.2]
    simp [share, hkeep]
  · rw [hlimbo] at hm
    rw [hcounter, hrefs]
    exact h.limbo u task hm
  · rw [hcounter, hrefs]
    exact h.hand u task (hrole u task hu)
  · have hkeep := hline i (by simp [hi, Phase.isGone])
    rw [hkeep] at hi ⊢
    rw [hrefs]
    exact h.zero i b hi
  · rw [hlimbo]
    exact h.limbo_nodup u
  · by_cases hu : u = t
    · subst hu
      have hnew : ref ∉ l.store.reference_pool u := h.not_at hd (hp u).symm
      have hold := h.pool_nodup u
      simpa [hstore, Store.releaseRef, Store.setReferencePool, List.nodup_append, hold] using
        fun r hr => ne_of_mem_of_not_mem hr hnew
    · simpa [hstore, Store.releaseRef, Store.setReferencePool, hu] using h.pool_nodup u
  · rw [hlog]
    exact h.deallocate_nodup hd rfl

lemma books_free (h : Books l) {t : T} {task : DeallocTask} (hr : l.role t = .hand task) :
    Books ((l.setStore ((l.store.deallocate task.local_ptr).releaseRef t
      task.ref_counter)).setRole t .free) := by
  obtain ⟨hb, hc, hfree⟩ := h.hand t task hr
  obtain ⟨b, hb⟩ := Option.ne_none_iff_exists'.mp hb
  have hd : l.At task.ref_counter (.hand t b) := ⟨task, hr, rfl, hb⟩
  refine h.retire hd (by simp) hfree (t := t) (by rw [hb]; rfl) (fun r e => ?_) (fun _ => rfl)
    (fun _ _ => rfl) (fun u x hu => ?_) (fun ref => ?_) fun obj r hu => ?_
  · have hu : r = task.ref_counter → l.At r e → e = .hand t b := by
      rintro rfl he
      exact h.at_unique he hd
    cases e with
    | unmade | line i x | limbo u x =>
      grind [At, setRole, setStore, Store.releaseRef, Store.setReferencePool, deallocate_next_ref,
        deallocate_dealloc_pool]
    | pooled u | hand u x =>
      by_cases hut : u = t
      · subst hut
        simp only [At, setRole_store, setStore_store, setRole_role, setStore_role,
          Store.releaseRef, Store.setReferencePool, Function.update_self] at hu ⊢
        grind [deallocate_reference_pool]
      · simp only [At, setRole_store, setStore_store, setRole_role, setStore_role,
          Store.releaseRef, Store.setReferencePool, ne_eq, hut, not_false_eq_true,
          Function.update_of_ne] at hu ⊢
        grind [deallocate_reference_pool]
  · by_cases hut : u = t
    · subst hut
      simp at hu
    · simpa [hut] using hu
  · rw [references_setRole_eq (l := l.setStore _) t (fun _ => by rw [setStore_role, hr]; rfl)
      fun _ => rfl]
    refine references_congr ref ?_ rfl
    simp [Store.releaseRef, Store.setReferencePool]
  · have hu := uses_setRole (fun _ => rfl) hu
    simpa [Uses, Store.releaseRef, Store.setReferencePool] using hu

/-! ### Replacing the buffer of a line -/

lemma references_setPhase (l : Ledger T) (s : Store T) (hs : s.objects = l.store.objects) (i : ℕ)
    (phase : Phase) (ref : Ref) :
    ((l.setStore s).setPhase i phase).references ref = l.references ref := by
  refine references_congr ref ?_ rfl
  exact hs

lemma uses_setPhase {s : Store T} (hs : s.objects = l.store.objects) {i : ℕ} {phase : Phase}
    {obj : Option ℕ} (hu : ((l.setStore s).setPhase i phase).Uses obj ref) : l.Uses obj ref := by
  rcases hu with hu | hu
  · refine .inl ?_
    rw [← hs]
    exact hu
  · exact .inr hu

lemma at_line_of_kept (i : ℕ) (hk : (l.line i).phase.isGone = false) :
    l.At (l.line i).ref (.line i (l.line i).buf) := ⟨hk, rfl, rfl⟩

/-- Putting the counter of a line, and the buffer, somewhere else. -/
lemma at_gone (h : Books l) {i b : ℕ} (hk : (l.line i).phase.isGone = false) {s : Store T}
    {e : Place T}
    (hstore : ∀ r e', (∀ j x, e' ≠ .line j x) → ((l.setStore s).At r e' ↔
      r = (l.line i).ref ∧ e' = e ∨ l.At r e')) (he : ∀ j x, e ≠ .line j x) (r : Ref)
    (e' : Place T) : ((l.setStore s).setPhase i (.gone b)).At r e' ↔
      r = (l.line i).ref ∧ e' = e ∨ r ≠ (l.line i).ref ∧ l.At r e' := by
  have hd := at_line_of_kept i hk
  have hother : (∀ j x, e' ≠ .line j x) → (((l.setStore s).setPhase i (.gone b)).At r e' ↔
      (l.setStore s).At r e') := by
    intro hl
    cases e' with
    | line j x => exact absurd rfl (hl j x)
    | unmade | pooled | limbo | hand => rfl
  by_cases hl : ∃ j x, e' = .line j x
  · obtain ⟨j, x, rfl⟩ := hl
    have hu : r = (l.line i).ref → l.At r (.line j x) → j = i := by
      rintro rfl hj
      cases h.at_unique hj hd
      rfl
    by_cases hj : j = i
    · subst hj
      have hgone : ¬ ((l.setStore s).setPhase j (.gone b)).At r (.line j x) := by
        simp [At, setPhase, Phase.isGone]
      refine iff_of_false hgone ?_
      rintro (⟨-, hx⟩ | ⟨hr, hx⟩)
      · exact he j x hx.symm
      · exact hr hx.2.1.symm
    · have hsame : ((l.setStore s).setPhase i (.gone b)).At r (.line j x) ↔
          l.At r (.line j x) := by
        simp [At, setPhase, hj]
      rw [hsame]
      constructor
      · exact fun hx => .inr ⟨fun hr => hj (hu hr hx), hx⟩
      · rintro (⟨-, hx⟩ | ⟨-, hx⟩)
        · exact absurd hx.symm (he j x)
        · exact hx
  · have hl : ∀ j x, e' ≠ .line j x := fun j x hx => hl ⟨j, x, hx⟩
    rw [hother hl, hstore r e' hl]
    constructor
    · rintro (hx | hx)
      · exact .inl hx
      · refine .inr ⟨?_, hx⟩
        rintro rfl
        exact hl _ _ (h.at_unique hx hd)
    · rintro (hx | hx)
      · exact .inl hx
      · exact .inr hx.2

lemma at_setPhase {i : ℕ} {phase : Phase} (hk : (l.line i).phase.isGone = false)
    (hp : phase.isGone = false) (r : Ref) (e : Place T) :
    (l.setPhase i phase).At r e ↔ l.At r e := by
  cases e with
  | line j x =>
    by_cases hj : j = i
    · subst hj
      simp [At, setPhase, hk, hp]
    · simp [At, setPhase, hj]
  | unmade | pooled | limbo | hand => rfl

lemma Books.line_unique (h : Books l) {i j : ℕ} (hi : (l.line i).phase.isGone = false)
    (hj : (l.line j).phase.isGone = false) (hr : (l.line i).ref = (l.line j).ref) : i = j := by
  have hd := at_line_of_kept (l := l) i hi
  rw [hr] at hd
  cases h.at_unique hd (at_line_of_kept j hj)
  rfl

lemma setPhase_line_self (i : ℕ) (phase : Phase) :
    (l.setPhase i phase).line i = { l.line i with phase } := Function.update_self ..

lemma setPhase_line_of_ne {i j : ℕ} (hj : j ≠ i) (phase : Phase) :
    (l.setPhase i phase).line j = l.line j := Function.update_of_ne hj ..

lemma setPhase_data {i : ℕ} {phase : Phase} (hp : phase.data = (l.line i).phase.data) (j : ℕ) :
    ((l.setPhase i phase).line j).phase.data = (l.line j).phase.data := by
  by_cases hj : j = i
  · subst hj
    rw [setPhase_line_self]
    exact hp
  · rw [setPhase_line_of_ne hj]

/-- A step of the holder of a line that leaves its counter in the line. -/
lemma Books.setPhase (h : Books l) {i : ℕ} {phase : Phase} {s : Store T}
    (hk : (l.line i).phase.isGone = false) (hp : phase.isGone = false)
    (hplaced : Placed ((l.setStore s).setPhase i phase)) (hobj : s.objects = l.store.objects)
    (hlimbo : s.dealloc_pool = l.store.dealloc_pool)
    (hpool : s.reference_pool = l.store.reference_pool)
    (hlog : s.deallocations = l.store.deallocations)
    (hat : ∀ r e, (l.setStore s).At r e ↔ l.At r e)
    (hcounter : ∀ r, r ≠ (l.line i).ref → s.counter r = l.store.counter r)
    (hhere : s.counter (l.line i).ref = l.store.counter (l.line i).ref +
      (if (l.line i).phase.isDropped then 1 else 0) - if phase.isDropped then 1 else 0)
    (hzero : ∀ b, phase = .dropped b true → l.references (l.line i).ref = 0) :
    Books ((l.setStore s).setPhase i phase) := by
  have hd := at_line_of_kept i hk
  have hrefs := references_setPhase l s hobj i phase
  have hat' : ∀ r e, ((l.setStore s).setPhase i phase).At r e ↔ l.At r e :=
    fun r e => (at_setPhase (l := l.setStore s) hk hp r e).trans (hat r e)
  have hother : ∀ r e, l.At r e → e ≠ .line i (l.line i).buf → s.counter r = l.store.counter r := by
    intro r e he hne
    refine hcounter r ?_
    rintro rfl
    exact hne (h.at_unique he hd)
  refine ⟨hplaced, fun j x hj => ?_, fun u task hm => ?_, fun u task hu => ?_, fun j x hj => ?_,
    fun u => ?_, fun u => ?_, ?_⟩
  · rw [hrefs]
    by_cases hji : j = i
    · subst hji
      rw [setPhase_line_self, setStore_line] at hj ⊢
      obtain rfl : (l.line j).buf = x := ((hat' _ _).mp hj).2.2
      have hl := h.line j _ hd
      simp only [share, setPhase_line_self, setStore_line] at hl ⊢
      change s.counter (l.line j).ref = _
      rw [hhere, hl]
      ring
    · rw [setPhase_line_of_ne hji, setStore_line] at hj ⊢
      have hj := (hat' _ _).mp hj
      have hl := h.line j x hj
      simp only [share, setPhase_line_of_ne hji, setStore_line] at hl ⊢
      change s.counter (l.line j).ref = _
      rw [hother _ _ hj (by simp [hji]), hl]
  · change task ∈ s.dealloc_pool u at hm
    rw [hlimbo] at hm
    obtain ⟨b, -, hb⟩ := h.at_limbo hm
    rw [hrefs]
    change _ ∧ s.counter task.ref_counter = _
    rw [hother _ _ hb (by simp)]
    exact h.limbo u task hm
  · obtain ⟨hb, hc, hr⟩ := h.hand u task hu
    obtain ⟨b, hb'⟩ := Option.ne_none_iff_exists'.mp hb
    rw [hrefs]
    change _ ∧ s.counter task.ref_counter = _ ∧ _
    rw [hother _ (.hand u b) ⟨task, hu, rfl, hb'⟩ (by simp)]
    exact ⟨hb, hc, hr⟩
  · rw [hrefs]
    by_cases hji : j = i
    · subst hji
      rw [setPhase_line_self] at hj ⊢
      exact hzero x hj
    · rw [setPhase_line_of_ne hji] at hj ⊢
      exact h.zero j x hj
  · change (s.dealloc_pool u |>.map _).Nodup
    rw [hlimbo]
    exact h.limbo_nodup u
  · change (s.reference_pool u).Nodup
    rw [hpool]
    exact h.pool_nodup u
  · change s.deallocations.Nodup
    rw [hlog]
    exact h.log

lemma books_fetch (h : Books l) {i : ℕ} (hk : (l.line i).phase = .kept) :
    Books ((l.setStore l.store.countBuffer).setPhase i (.fetched l.store.next_buffer)) := by
  have hat : ∀ r e, ((l.setStore l.store.countBuffer).setPhase i
      (.fetched l.store.next_buffer)).At r e ↔ l.At r e := by
    intro r e
    refine (at_setPhase ?_ rfl r e).trans ?_
    · simp [hk, Phase.isGone]
    · cases e <;> rfl
  have hnew : ∀ c, l.Held l.store.next_buffer c → c = .unfetched :=
    fun c hc => h.held_unique hc (le_refl l.store.next_buffer)
  have hline : ∀ j, j ≠ i → ((l.setStore l.store.countBuffer).setPhase i
      (.fetched l.store.next_buffer)).line j = l.line j := by
    intro j hj
    simp [setPhase, hj]
  have hhere : ((l.setStore l.store.countBuffer).setPhase i
      (.fetched l.store.next_buffer)).line i =
      { l.line i with phase := .fetched l.store.next_buffer } := by
    simp [setPhase]
  have hheld : ∀ b, ∃! c, ((l.setStore l.store.countBuffer).setPhase i
      (.fetched l.store.next_buffer)).Held b c := by
    refine existsUnique_move h.buffers (x := l.store.next_buffer) (d := .reading i)
      (fun c => ?_) fun b hb c => ?_
    · cases c with
      | unfetched => simp [Held, setPhase, Store.countBuffer]
      | reading j =>
        by_cases hj : j = i
        · subst hj
          simp [Held, hhere, Phase.data]
        · refine iff_of_false (fun hc => ?_) (by simp [hj])
          rw [Held, hline j hj] at hc
          cases hnew (.reading j) hc
      | counted r =>
        refine iff_of_false (fun hc => ?_) (by rintro ⟨⟩)
        cases hnew _ ((held_counted_iff hat _ r).mp hc)
      | temp k => exact iff_of_false (fun hc => by cases hnew (.temp k) hc) (by rintro ⟨⟩)
      | deallocated => exact iff_of_false (fun hc => by cases hnew .deallocated hc) (by rintro ⟨⟩)
    · cases c with
      | unfetched =>
        simp only [Held, setPhase, setLine_store, setStore_store, Store.countBuffer]
        omega
      | reading j =>
        by_cases hj : j = i
        · subst hj
          simp [Held, hhere, Phase.data, hk, Ne.symm hb]
        · simp only [Held, hline j hj]
      | counted r => exact held_counted_iff hat b r
      | temp k => rfl
      | deallocated => rfl
  have hplaced := h.toPlaced.keep hat hheld fun obj r hu => h.named obj r (uses_setPhase (by rfl) hu)
  refine h.setPhase (by simp [hk, Phase.isGone]) rfl hplaced rfl rfl rfl rfl (fun r e => ?_)
    (fun _ _ => rfl) ?_ (by rintro _ ⟨⟩)
  · cases e <;> rfl
  · simp [hk, Phase.isDropped, Store.countBuffer]

lemma books_decrement (h : Books l) {i b : ℕ} (hk : (l.line i).phase = .fetched b) :
    Books ((l.setStore (l.store.setCounter (l.line i).ref
      (l.store.counter (l.line i).ref - 1))).setPhase i (.dropped b false)) := by
  have hkeep : (l.line i).phase.isGone = false := by simp [hk, Phase.isGone]
  have hat : ∀ r e, (l.setStore (l.store.setCounter (l.line i).ref
      (l.store.counter (l.line i).ref - 1))).At r e ↔ l.At r e := by
    intro r e
    cases e <;> rfl
  have hplaced : Placed ((l.setStore (l.store.setCounter (l.line i).ref
      (l.store.counter (l.line i).ref - 1))).setPhase i (.dropped b false)) := by
    exact h.toPlaced.same (fun r e =>
      (at_setPhase (l := l.setStore _) hkeep rfl r e).trans (hat r e))
      (setPhase_data (l := l.setStore _) (by simp [hk, Phase.data])) (fun _ _ _ => Iff.rfl) rfl rfl
      fun obj r hu => h.named obj r (uses_setPhase (by rfl) hu)
  refine h.setPhase hkeep rfl hplaced rfl rfl rfl rfl hat (fun r hr => ?_) ?_ (by rintro _ ⟨⟩)
  · simp [Store.setCounter, hr]
  · simp [Store.setCounter, hk, Phase.isDropped]

lemma books_zero (h : Books l) {i b : ℕ} (hk : (l.line i).phase = .dropped b false)
    (hz : l.store.counter (l.line i).ref = 0) : Books (l.setPhase i (.dropped b true)) := by
  have hkeep : (l.line i).phase.isGone = false := by simp [hk, Phase.isGone]
  have hd := at_line_of_kept i hkeep
  have hplaced : Placed (l.setPhase i (.dropped b true)) := by
    exact h.toPlaced.same (at_setPhase hkeep rfl) (setPhase_data (by simp [hk, Phase.data]))
      (fun _ _ _ => Iff.rfl) rfl rfl fun obj r hu => h.named obj r hu
  refine h.setPhase (s := l.store) hkeep rfl hplaced rfl rfl rfl rfl (fun _ _ => Iff.rfl)
    (fun _ _ => rfl) (by simp [hk, Phase.isDropped]) fun _ _ => ?_
  cases hb : (l.line i).buf with
  | none =>
    rw [hb] at hd
    exact h.references_eq_zero hd rfl
  | some x =>
    have hl := h.line i _ hd
    rw [hz] at hl
    simp only [share, hb, Option.isSome_some, if_true, hk, Phase.isDropped] at hl
    omega

lemma books_enqueue (h : Books l) {i b : ℕ} {task : DeallocTask} (t : T)
    (hk : (l.line i).phase = .dropped b false) (hb : (l.line i).buf ≠ none)
    (hptr : task.local_ptr = (l.line i).buf) (href : task.ref_counter = (l.line i).ref) :
    Books ((l.setStore (l.store.setDeallocPool t (l.store.dealloc_pool t ++ [task]))).setPhase i
      (.gone b)) := by
  have hkeep : (l.line i).phase.isGone = false := by simp [hk, Phase.isGone]
  have hd := at_line_of_kept i hkeep
  obtain ⟨x, hx⟩ := Option.ne_none_iff_exists'.mp hb
  rw [hx] at hd hptr
  have hmem : ∀ u y, y ∈ (l.store.setDeallocPool t (l.store.dealloc_pool t ++ [task])).dealloc_pool
      u ↔ y ∈ l.store.dealloc_pool u ∨ u = t ∧ y = task := by
    intro u y
    by_cases hu : u = t
    · subst hu
      simp [Store.setDeallocPool]
    · simp [Store.setDeallocPool, hu]
  have hat := at_gone h (b := b) hkeep (e := .limbo t x)
    (s := l.store.setDeallocPool t (l.store.dealloc_pool t ++ [task])) (fun r e he => by
      cases e with
      | line j y => exact absurd rfl (he j y)
      | unmade | pooled u | hand u y => simp [At, Store.setDeallocPool]
      | limbo u y =>
        simp only [At, setStore_store, hmem]
        grind) (by rintro _ _ ⟨⟩)
  have hrefs := references_setPhase l
    (l.store.setDeallocPool t (l.store.dealloc_pool t ++ [task])) rfl i (.gone b)
  have hplaced : Placed ((l.setStore (l.store.setDeallocPool t
      (l.store.dealloc_pool t ++ [task]))).setPhase i (.gone b)) :=
    h.toPlaced.relocate (e := .limbo t x) hd rfl hat
      (setPhase_data (l := l.setStore _) (by simp [hk, Phase.data])) rfl rfl rfl fun obj r hu => uses_setPhase (by rfl) hu
  refine ⟨hplaced, fun j y hj => ?_, fun u y hy => ?_, fun u y hy => ?_, fun j y hj => ?_,
    fun u => ?_, h.pool_nodup, h.log⟩
  · rw [hrefs]
    by_cases hji : j = i
    · subst hji
      rw [setPhase_line_self] at hj
      exact absurd hj.1 (by simp [setPhase_line_self, Phase.isGone])
    · rw [setPhase_line_of_ne hji] at hj ⊢
      have hl := h.line j y (((hat _ _).mp hj).resolve_left (by simp)).2
      simp only [share, setPhase_line_of_ne hji] at hl ⊢
      exact hl
  · rw [hrefs]
    rcases (hmem u y).mp hy with hy | ⟨-, rfl⟩
    · exact h.limbo u y hy
    · refine ⟨by simp [hptr], ?_⟩
      have hl := h.line i _ hd
      rw [href]
      refine hl.trans ?_
      simp [share, hk, Phase.isDropped]
  · rw [hrefs]
    exact h.hand u y hy
  · rw [hrefs]
    by_cases hji : j = i
    · subst hji
      rw [setPhase_line_self] at hj
      cases hj
    · rw [setPhase_line_of_ne hji] at hj ⊢
      exact h.zero j y hj
  · by_cases hu : u = t
    · subst hu
      have hnew : ∀ y ∈ l.store.dealloc_pool u, y.ref_counter ≠ task.ref_counter := by
        intro y hy hr
        obtain ⟨z, -, hz⟩ := h.at_limbo hy
        rw [hr, href] at hz
        cases h.at_unique hz hd
      have hold := h.limbo_nodup u
      simp only [setPhase, setLine_store, setStore_store, Store.setDeallocPool,
        Function.update_self, List.map_append, List.map_cons, List.map_nil]
      refine List.nodup_append.mpr ⟨hold, List.nodup_singleton _, fun r hr r' hr' => ?_⟩
      obtain ⟨y, hy, rfl⟩ := List.mem_map.mp hr
      rw [List.mem_singleton.mp hr']
      exact hnew y hy
    · simpa [setPhase, Store.setDeallocPool, hu] using h.limbo_nodup u

/-- The holder of a line hands its counter back, after the buffer if that has no users left. -/
lemma books_gone (h : Books l) {i b : ℕ} {old : Bool} (t : T)
    (hk : (l.line i).phase = .dropped b old) (hfree : l.references (l.line i).ref = 0) :
    Books ((l.setStore ((l.store.deallocate (l.line i).buf).releaseRef t
      (l.line i).ref)).setPhase i (.gone b)) := by
  have hkeep : (l.line i).phase.isGone = false := by simp [hk, Phase.isGone]
  have hobj : ((l.store.deallocate (l.line i).buf).releaseRef t (l.line i).ref).objects =
      l.store.objects := by
    simp [Store.releaseRef, Store.setReferencePool]
  have hat := at_gone h (b := b) hkeep (e := .pooled t)
    (s := (l.store.deallocate (l.line i).buf).releaseRef t (l.line i).ref) (fun r e he => by
      cases e with
      | line j y => exact absurd rfl (he j y)
      | unmade | limbo u y | hand u y => simp [At, Store.releaseRef, Store.setReferencePool]
      | pooled u =>
        by_cases hu : u = t
        · subst hu
          simp [At, Store.releaseRef, Store.setReferencePool, or_comm]
        · simp [At, Store.releaseRef, Store.setReferencePool, hu]) (by rintro _ _ ⟨⟩)
  refine h.retire (at_line_of_kept i hkeep) (by simp) hfree (t := t) rfl hat
    (setPhase_data (l := l.setStore _) (by simp [hk, Phase.data])) (fun j hj => ?_)
    (fun _ _ hu => hu) (references_setPhase l _ hobj i _) fun obj r hu => uses_setPhase hobj hu
  by_cases hji : j = i
  · subst hji
    rw [setPhase_line_self] at hj
    cases hj
  · rw [setPhase_line_of_ne hji, setStore_line]

lemma fetchRef_cases (l : Ledger T) (t : T) :
    (∃ rest, l.store.reference_pool t = (l.store.fetchRef t).1 :: rest ∧
      (l.store.fetchRef t).2 = l.store.setReferencePool t rest) ∨
    (l.store.reference_pool t = [] ∧ (l.store.fetchRef t).1 = .generated l.store.next_ref ∧
      (l.store.fetchRef t).2 = { l.store with next_ref := l.store.next_ref + 1 }) := by
  unfold Store.fetchRef
  cases hp : l.store.reference_pool t with
  | nil => exact .inr ⟨rfl, rfl, rfl⟩
  | cons ref rest => exact .inl ⟨rest, rfl, rfl⟩

/-- A fetched counter was in the thread's pool, or did not exist. -/
lemma fetchRef_at (l : Ledger T) (t : T) :
    ∃ d, l.At (l.store.fetchRef t).1 d ∧ d.buffer = none ∧ (∀ i b, d ≠ .line i b) := by
  rcases fetchRef_cases l t with ⟨rest, hp, -⟩ | ⟨-, hr, -⟩
  · refine ⟨.pooled t, ?_, rfl, by simp⟩
    simp [At, hp]
  · exact ⟨.unmade, ⟨_, hr, le_rfl⟩, rfl, by simp⟩

lemma fetchRef_same (l : Ledger T) (t : T) :
    (l.store.fetchRef t).2.objects = l.store.objects ∧
    (l.store.fetchRef t).2.dealloc_pool = l.store.dealloc_pool ∧
    (l.store.fetchRef t).2.deallocations = l.store.deallocations ∧
    (l.store.fetchRef t).2.next_buffer = l.store.next_buffer ∧
    (l.store.fetchRef t).2.counter = l.store.counter := by
  rcases fetchRef_cases l t with ⟨rest, -, hs⟩ | ⟨-, -, hs⟩ <;> rw [hs] <;>
    exact ⟨rfl, rfl, rfl, rfl, rfl⟩

lemma Books.at_fresh (h : Books l) (he : l.At (.generated l.store.next_ref) e) : e = .unmade :=
  h.at_unique he ⟨_, rfl, le_rfl⟩

/-- What is left where a counter was fetched from. -/
lemma fetchRef_rest (h : Books l) (t : T) (r : Ref) (e : Place T) (he : ∀ i b, e ≠ .line i b) :
    (l.setStore (l.store.fetchRef t).2).At r e ↔ r ≠ (l.store.fetchRef t).1 ∧ l.At r e := by
  have hnodup := h.pool_nodup t
  obtain ⟨d, hd, -, -⟩ := fetchRef_at l t
  have hu : r = (l.store.fetchRef t).1 → l.At r e → e = d := by
    rintro rfl he'
    exact h.at_unique he' hd
  rcases fetchRef_cases l t with ⟨rest, hp, hs⟩ | ⟨hp, hr, hs⟩
  · rw [hp, List.nodup_cons] at hnodup
    obtain rfl : d = .pooled t := h.at_unique hd (by simp [At, hp])
    rw [hs]
    cases e with
    | line i b => exact absurd rfl (he i b)
    | pooled u =>
      by_cases hut : u = t
      · subst hut
        simp only [At, setStore_store, Store.setReferencePool, Function.update_self] at hu ⊢
        grind
      · simp only [At, setStore_store, Store.setReferencePool, ne_eq, hut, not_false_eq_true,
          Function.update_of_ne] at hu ⊢
        grind
    | unmade | limbo u x | hand u x =>
      simp only [At, setStore_store, setStore_role, Store.setReferencePool] at hu ⊢
      grind
  · rw [hs, hr]
    cases e with
    | line i b => exact absurd rfl (he i b)
    | unmade =>
      simp only [At, setStore_store]
      constructor
      · rintro ⟨n, rfl, hn⟩
        exact ⟨fun hn' => by cases hn'; omega, n, rfl, by omega⟩
      · rintro ⟨hne, n, rfl, hn⟩
        refine ⟨n, rfl, ?_⟩
        have : n ≠ l.store.next_ref := fun hn' => hne (by rw [hn'])
        omega
    | pooled u =>
      refine ⟨fun he' => ⟨fun hr' => ?_, he'⟩, And.right⟩
      cases h.at_fresh (e := .pooled u) (hr' ▸ he')
    | limbo u x =>
      refine ⟨fun he' => ⟨fun hr' => ?_, he'⟩, And.right⟩
      cases h.at_fresh (e := .limbo u x) (hr' ▸ he')
    | hand u x =>
      refine ⟨fun he' => ⟨fun hr' => ?_, he'⟩, And.right⟩
      cases h.at_fresh (e := .hand u x) (hr' ▸ he')

lemma books_install (h : Books l) {i b : ℕ} (t : T) (hk : (l.line i).phase = .gone b) :
    Books ((l.setStore ((l.store.fetchRef t).2.setCounter (l.store.fetchRef t).1 1)).setLine i
      ⟨some b, (l.store.fetchRef t).1, .kept⟩) := by
  obtain ⟨d, hd, hdb, hdl⟩ := fetchRef_at l t
  obtain ⟨hobj, hlimbo, hlog, hbuf, hcounter⟩ := fetchRef_same l t
  have hfree := h.references_eq_zero hd hdb
  have hrest := fetchRef_rest h t
  have hpools : ∀ u, ((l.store.fetchRef t).2.reference_pool u).Nodup := by
    intro u
    rcases fetchRef_cases l t with ⟨rest, hp, hs⟩ | ⟨-, -, hs⟩
    · have hnodup := h.pool_nodup t
      rw [hp, List.nodup_cons] at hnodup
      by_cases hu : u = t
      · subst hu
        simpa [hs, Store.setReferencePool] using hnodup.2
      · simpa [hs, Store.setReferencePool, hu] using h.pool_nodup u
    · rw [hs]
      exact h.pool_nodup u
  generalize hr : (l.store.fetchRef t).1 = ref at *
  generalize (l.store.fetchRef t).2 = s at *
  have hrefs : ∀ r, ((l.setStore (s.setCounter ref 1)).setLine i
      ⟨some b, ref, .kept⟩).references r = l.references r :=
    fun r => references_congr r hobj rfl
  have hself : ((l.setStore (s.setCounter ref 1)).setLine i ⟨some b, ref, .kept⟩).line i =
      ⟨some b, ref, .kept⟩ := Function.update_self ..
  have hne : ∀ j, j ≠ i → ((l.setStore (s.setCounter ref 1)).setLine i
      ⟨some b, ref, .kept⟩).line j = l.line j := fun j hj => Function.update_of_ne hj ..
  have hat : ∀ r e, ((l.setStore (s.setCounter ref 1)).setLine i ⟨some b, ref, .kept⟩).At r e ↔
      r = ref ∧ e = .line i (some b) ∨ r ≠ ref ∧ l.At r e := by
    intro r e
    by_cases hl : ∃ j x, e = .line j x
    · obtain ⟨j, x, rfl⟩ := hl
      by_cases hj : j = i
      · subst hj
        simp only [At, hself, hk, Phase.isGone]
        grind
      · have hu : r = ref → ¬ l.At r (.line j x) := by
          rintro rfl hx
          exact hdl j x (h.at_unique hd hx)
        simp only [At, hne j hj] at hu ⊢
        grind
    · have hl : ∀ j x, e ≠ .line j x := fun j x hx => hl ⟨j, x, hx⟩
      have hsame : ((l.setStore (s.setCounter ref 1)).setLine i ⟨some b, ref, .kept⟩).At r e ↔
          (l.setStore s).At r e := by
        cases e with
        | line j x => exact absurd rfl (hl j x)
        | unmade | pooled | limbo | hand => rfl
      rw [hsame, hrest r e hl]
      simp [hl]
  have hdata : l.Held b (.reading i) := by simp [Held, hk, Phase.data]
  have hcounted : ∀ r x, (∃ e, ((l.setStore (s.setCounter ref 1)).setLine i
      ⟨some b, ref, .kept⟩).At r e ∧ e.buffer = some x) ↔
      r = ref ∧ x = b ∨ ∃ e, l.At r e ∧ e.buffer = some x := by
    intro r x
    simp only [hat]
    constructor
    · rintro ⟨e, ⟨rfl, rfl⟩ | ⟨-, he⟩, hx⟩
      · exact .inl ⟨rfl, (Option.some.inj hx).symm⟩
      · exact .inr ⟨e, he, hx⟩
    · rintro (⟨rfl, rfl⟩ | ⟨e, he, hx⟩)
      · exact ⟨_, .inl ⟨rfl, rfl⟩, rfl⟩
      · refine ⟨e, .inr ⟨?_, he⟩, hx⟩
        rintro rfl
        rw [h.at_unique he hd, hdb] at hx
        cases hx
  have hplaced : Placed ((l.setStore (s.setCounter ref 1)).setLine i ⟨some b, ref, .kept⟩) := by
    refine ⟨existsUnique_move h.refs (x := ref) (d := .line i (some b)) (fun e => by simp [hat])
      fun r hr e => by simp [hat, hr], existsUnique_move h.buffers (x := b) (d := .counted ref)
      (fun c => ?_) fun x hx c => ?_, fun obj r hu => ?_⟩
    · have hold : ∀ c, l.Held b c → c = .reading i := fun c hc => h.held_unique hc hdata
      cases c with
      | unfetched =>
        refine iff_of_false (fun hc => ?_) (by rintro ⟨⟩)
        cases hold .unfetched (by simpa [Held, hbuf, Store.setCounter] using hc)
      | reading j =>
        refine iff_of_false (fun hc => ?_) (by rintro ⟨⟩)
        by_cases hj : j = i
        · subst hj
          simp [Held, hself, Phase.data] at hc
        · rw [Held, hne j hj] at hc
          exact hj (by simpa using hold (.reading j) hc)
      | counted r =>
        refine (hcounted r b).trans ?_
        constructor
        · rintro (⟨rfl, -⟩ | hc)
          · rfl
          · cases hold (.counted r) hc
        · rintro ⟨⟩
          exact .inl ⟨rfl, rfl⟩
      | temp k =>
        refine iff_of_false (fun hc => ?_) (by rintro ⟨⟩)
        cases hold (.temp k) (by simpa [Held, hobj, Store.setCounter] using hc)
      | deallocated =>
        refine iff_of_false (fun hc => ?_) (by rintro ⟨⟩)
        cases hold .deallocated (by simpa [Held, hlog, Store.setCounter] using hc)
    · cases c with
      | unfetched => simp [Held, Store.setCounter, hbuf]
      | reading j =>
        by_cases hj : j = i
        · subst hj
          simp [Held, hself, hk, Phase.data, Ne.symm hx]
        · simp [Held, hne j hj]
      | counted r => exact (hcounted r x).trans (by simp [hx, Held])
      | temp k => simp [Held, Store.setCounter, hobj]
      | deallocated => simp [Held, Store.setCounter, hlog]
    · have hu : l.Uses obj r := by simpa [Uses, Store.setCounter, hobj] using hu
      obtain ⟨e, x, rfl, he, hx⟩ := h.named obj r hu
      obtain ⟨e', he', hx'⟩ := (hcounted r x).mpr (.inr ⟨e, he, hx⟩)
      exact ⟨e', x, rfl, he', hx'⟩
  have hcount : ∀ r, r ≠ ref → (s.setCounter ref 1).counter r = l.store.counter r := by
    intro r hr
    simp [Store.setCounter, hr, hcounter]
  have hused : ∀ r e, l.At r e → e.buffer ≠ none → r ≠ ref := by
    rintro r e he hb rfl
    exact hb (h.at_unique he hd ▸ hdb)
  refine ⟨hplaced, fun j x hj => ?_, fun u task hm => ?_, fun u task hu => ?_, fun j x hj => ?_,
    fun u => ?_, hpools, ?_⟩
  · rw [hrefs]
    by_cases hji : j = i
    · subst hji
      obtain rfl : some b = x := by simpa [hself] using hj.2.2
      simp [share, Store.setCounter, hfree, Phase.isDropped]
    · rw [hne j hji] at hj ⊢
      have hj' := ((hat _ _).mp hj).resolve_left (by simp [hji])
      have hl := h.line j x hj'.2
      simp only [share, hne j hji] at hl ⊢
      exact (hcount _ hj'.1).trans hl
  · have hm : task ∈ l.store.dealloc_pool u := hlimbo ▸ hm
    obtain ⟨x, -, hx⟩ := h.at_limbo hm
    rw [hrefs]
    exact ⟨(h.limbo u task hm).1,
      (hcount _ (hused _ _ hx (by simp [Place.buffer]))).trans (h.limbo u task hm).2⟩
  · obtain ⟨hb, hc, hz⟩ := h.hand u task hu
    obtain ⟨x, hx⟩ := Option.ne_none_iff_exists'.mp hb
    rw [hrefs]
    refine ⟨hb, (hcount _ ?_).trans hc, hz⟩
    exact hused _ (.hand u x) ⟨task, hu, rfl, hx⟩ (by simp [Place.buffer])
  · rw [hrefs]
    by_cases hji : j = i
    · subst hji
      rw [hself] at hj
      cases hj
    · rw [hne j hji] at hj ⊢
      exact h.zero j x hj
  · change (s.dealloc_pool u |>.map _).Nodup
    rw [hlimbo]
    exact h.limbo_nodup u
  · change s.deallocations.Nodup
    rw [hlog]
    exact h.log

end ObjectCache.Cache.Buffers.Ledger
