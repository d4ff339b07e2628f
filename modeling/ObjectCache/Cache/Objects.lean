import ObjectCache.Cache.Books

/-! The moves of the callers' objects keep the books in order, and so does every move. -/

namespace ObjectCache.Cache.Buffers.Ledger

open Lib

set_option linter.unusedSectionVars false

variable {T : Type} [DecidableEq T] [Fintype T] {l l' : Ledger T} {ref : Ref} {d e : Place T}

/-- A move that leaves the lines and the lists alone, and counts what it uses. -/
lemma Books.recount (h : Books l) (hplaced : Placed l') (hline : l'.line = l.line)
    (hlimbo : l'.store.dealloc_pool = l.store.dealloc_pool)
    (hpool : l'.store.reference_pool = l.store.reference_pool)
    (hlog : l'.store.deallocations.Nodup) (hat : ∀ r e, l'.At r e ↔ l.At r e)
    (hcount : ∀ r, l'.store.counter r - l'.references r = l.store.counter r - l.references r)
    (hhand : ∀ t task, l'.role t = .hand task →
      l.role t = .hand task ∧ l'.references task.ref_counter = 0)
    (hzero : ∀ i b, (l.line i).phase = .dropped b true → l'.references (l.line i).ref = 0) :
    Books l' := by
  refine ⟨hplaced, fun i b hi => ?_, fun t task hm => ?_, fun t task hu => ?_, fun i b hi => ?_,
    fun t => ?_, fun t => ?_, hlog⟩
  · have hl := h.line i b (by simpa [hline] using (hat _ _).mp hi)
    have hc := hcount (l.line i).ref
    simp only [share, hline] at hl ⊢
    omega
  · rw [hlimbo] at hm
    obtain ⟨hb, hl⟩ := h.limbo t task hm
    have hc := hcount task.ref_counter
    exact ⟨hb, by omega⟩
  · obtain ⟨hu, hfree⟩ := hhand t task hu
    obtain ⟨hb, hl, hr⟩ := h.hand t task hu
    have hc := hcount task.ref_counter
    exact ⟨hb, by omega, hfree⟩
  · rw [hline] at hi ⊢
    exact hzero i b hi
  · rw [hlimbo]
    exact h.limbo_nodup t
  · rw [hpool]
    exact h.pool_nodup t

lemma books_increment (h : Books l) {t : T} {i b : ℕ} (hr : l.role t = .free)
    (hk : (l.line i).phase = .kept) (hb : (l.line i).buf = some b) :
    Books ((l.setStore (l.store.setCounter (l.line i).ref
      (l.store.counter (l.line i).ref + 1))).setRole t (.pending (some b) (l.line i).ref)) := by
  have hd := at_line_of_kept (l := l) i (by simp [hk, Phase.isGone])
  rw [hb] at hd
  have hat : ∀ r e, ((l.setStore (l.store.setCounter (l.line i).ref
      (l.store.counter (l.line i).ref + 1))).setRole t
        (.pending (some b) (l.line i).ref)).At r e ↔ l.At r e := by
    intro r e
    cases e with
    | hand u x =>
      by_cases hu : u = t
      · subst hu
        simp [At, hr]
      · simp [At, hu]
    | unmade | pooled | limbo | line => rfl
  have hrefs : ∀ r, ((l.setStore (l.store.setCounter (l.line i).ref
      (l.store.counter (l.line i).ref + 1))).setRole t
        (.pending (some b) (l.line i).ref)).references r =
          l.references r + if (l.line i).ref = r then 1 else 0 := by
    intro r
    have hs := references_setRole (l.setStore (l.store.setCounter (l.line i).ref
      (l.store.counter (l.line i).ref + 1))) t (.pending (some b) (l.line i).ref) r
    rw [references_setCounter] at hs
    simp only [setStore_role, hr, Role.returns] at hs
    simpa using hs
  have hnew : ∀ r e, l.At r e → e ≠ .line i (some b) → (l.line i).ref ≠ r := by
    rintro r e he hne rfl
    exact hne (h.at_unique he hd)
  have huses : ∀ obj r, ((l.setStore (l.store.setCounter (l.line i).ref
      (l.store.counter (l.line i).ref + 1))).setRole t
        (.pending (some b) (l.line i).ref)).Uses obj r → l.Named obj r := by
    rintro obj r (hu | ⟨u, hu⟩)
    · exact h.named obj r (.inl hu)
    · by_cases hut : u = t
      · subst hut
        rw [setRole_role, Function.update_self] at hu
        cases hu
        exact ⟨_, b, rfl, hd, rfl⟩
      · exact h.named obj r (.inr ⟨u, by simpa [hut] using hu⟩)
  refine h.recount (h.toPlaced.same hat (fun _ => rfl) (fun _ _ _ => Iff.rfl) rfl rfl huses) rfl rfl
    rfl h.log hat (fun r => ?_) (fun u task hu => ?_) fun j x hj => ?_
  · rw [hrefs]
    by_cases hr : (l.line i).ref = r
    · subst hr
      simp [Store.setCounter]
    · simp [Store.setCounter, hr, Ne.symm hr]
  · by_cases hut : u = t
    · subst hut
      simp at hu
    · have hu : l.role u = .hand task := by simpa [hut] using hu
      obtain ⟨hp, -, hz⟩ := h.hand u task hu
      obtain ⟨x, hx⟩ := Option.ne_none_iff_exists'.mp hp
      refine ⟨hu, ?_⟩
      rw [hrefs, hz, if_neg (hnew _ (.hand u x) ⟨task, hu, rfl, hx⟩ (by simp))]
  · have hji : i ≠ j := by
      rintro rfl
      rw [hk] at hj
      cases hj
    have hdj := at_line_of_kept (l := l) j (by simp [hj, Phase.isGone])
    rw [hrefs, h.zero j x hj, if_neg (hnew _ _ hdj (by simp [hji.symm]))]

lemma books_finish (h : Books l) {t : T} {obj : Option ℕ} (hr : l.role t = .pending obj ref) :
    Books ((l.setStore (l.store.construct (.counted obj ref))).setRole t .free) := by
  have hat : ∀ r e, ((l.setStore (l.store.construct (.counted obj ref))).setRole t .free).At r e ↔
      l.At r e := by
    intro r e
    cases e with
    | hand u x =>
      by_cases hu : u = t
      · subst hu
        simp [At, hr]
      · simp [At, hu]
    | unmade | pooled | limbo | line => rfl
  have hrefs : ∀ r, ((l.setStore (l.store.construct (.counted obj ref))).setRole t
      .free).references r = l.references r := by
    intro r
    have hs := references_setRole (l.setStore (l.store.construct (.counted obj ref))) t .free r
    rw [references_construct] at hs
    simp only [setStore_role, hr, Role.returns, CachedObject.counts] at hs
    simpa using hs
  have huses : ∀ o r, ((l.setStore (l.store.construct (.counted obj ref))).setRole t
      .free).Uses o r → l.Named o r := by
    rintro o r (hu | ⟨u, hu⟩)
    · rcases List.mem_append.mp hu with hu | hu
      · exact h.named o r (.inl hu)
      · cases List.mem_singleton.mp hu
        exact h.named obj ref (.inr ⟨t, hr⟩)
    · by_cases hut : u = t
      · subst hut
        simp at hu
      · exact h.named o r (.inr ⟨u, by simpa [hut] using hu⟩)
  refine h.recount (h.toPlaced.same hat (fun _ => rfl) (construct_temp_iff l (by simp)) rfl rfl huses)
    rfl rfl rfl h.log hat (fun r => by rw [hrefs]; rfl) (fun u task hu => ?_) fun j x hj => ?_
  · by_cases hut : u = t
    · subst hut
      simp at hu
    · have hu : l.role u = .hand task := by simpa [hut] using hu
      exact ⟨hu, (hrefs _).trans (h.hand u task hu).2.2⟩
  · exact (hrefs _).trans (h.zero j x hj)

lemma books_construct (h : Books l) (o : CachedObject) (hc : ∀ obj ref, o ≠ .counted obj ref)
    (ho : ∀ b pre, o ≠ .temp (.fetched b) pre) : Books (l.setStore (l.store.construct o)) := by
  have hcounts : ∀ r, o.counts r = false := by
    intro r
    cases o with
    | counted obj ref => exact absurd rfl (hc obj ref)
    | empty | temp => rfl
  have hrefs : ∀ r, (l.setStore (l.store.construct o)).references r = l.references r := by
    intro r
    simp [references_construct, hcounts]
  have hat : ∀ r e, (l.setStore (l.store.construct o)).At r e ↔ l.At r e := by
    intro r e
    cases e <;> rfl
  have huses : ∀ obj r, (l.setStore (l.store.construct o)).Uses obj r → l.Named obj r := by
    rintro obj r (hu | hu)
    · rcases List.mem_append.mp hu with hu | hu
      · exact h.named obj r (.inl hu)
      · exact absurd (List.mem_singleton.mp hu).symm (hc obj r)
    · exact h.named obj r (.inr hu)
  exact h.recount (h.toPlaced.same hat (fun _ => rfl) (construct_temp_iff l ho) rfl rfl huses)
    rfl rfl rfl h.log hat (fun r => by rw [hrefs]; rfl)
    (fun t task hu => ⟨hu, (hrefs _).trans (h.hand t task hu).2.2⟩)
    fun i b hi => (hrefs _).trans (h.zero i b hi)

lemma books_temp (h : Books l) : Books (l.setStore
    (l.store.countBuffer.construct (.temp (.fetched l.store.next_buffer) none))) := by
  have hrefs : ∀ r, (l.setStore (l.store.countBuffer.construct
      (.temp (.fetched l.store.next_buffer) none))).references r = l.references r := by
    intro r
    exact references_construct (l.setStore l.store.countBuffer)
      (.temp (.fetched l.store.next_buffer) none) r
  have hat : ∀ r e, (l.setStore (l.store.countBuffer.construct
      (.temp (.fetched l.store.next_buffer) none))).At r e ↔ l.At r e := by
    intro r e
    cases e <;> rfl
  have hobj : ∀ k x, (∃ pre, (l.store.countBuffer.construct
      (.temp (.fetched l.store.next_buffer) none)).objects[k]? = some (.temp (.fetched x) pre)) ↔
      k = l.store.objects.length ∧ x = l.store.next_buffer ∨
        ∃ pre, l.store.objects[k]? = some (.temp (.fetched x) pre) := by
    intro k x
    simp only [Store.construct, Store.countBuffer]
    rcases Nat.lt_trichotomy k l.store.objects.length with hk | rfl | hk
    · rw [List.getElem?_append_left hk]
      simp [hk.ne]
    · simp [eq_comm]
    · rw [List.getElem?_eq_none (by simp; omega), List.getElem?_eq_none (by omega)]
      simp [hk.ne']
  have hnew : ∀ c, l.Held l.store.next_buffer c → c = .unfetched :=
    fun c hc => h.held_unique hc (le_refl l.store.next_buffer)
  have hheld : ∀ b, ∃! c, (l.setStore (l.store.countBuffer.construct
      (.temp (.fetched l.store.next_buffer) none))).Held b c := by
    refine existsUnique_move h.buffers (x := l.store.next_buffer)
      (d := .temp l.store.objects.length) (fun c => ?_) fun b hb c => ?_
    · cases c with
      | unfetched => simp [Held, Store.construct, Store.countBuffer]
      | reading j => exact iff_of_false (fun hc => by cases hnew (.reading j) hc) (by rintro ⟨⟩)
      | counted r =>
        refine iff_of_false (fun hc => ?_) (by rintro ⟨⟩)
        cases hnew _ ((held_counted_iff hat _ r).mp hc)
      | temp k =>
        refine (hobj k _).trans ?_
        constructor
        · rintro (⟨rfl, -⟩ | hc)
          · rfl
          · cases hnew (.temp k) hc
        · rintro ⟨⟩
          exact .inl ⟨rfl, rfl⟩
      | deallocated => exact iff_of_false (fun hc => by cases hnew .deallocated hc) (by rintro ⟨⟩)
    · cases c with
      | unfetched =>
        simp only [Held, setStore_store, Store.construct, Store.countBuffer]
        omega
      | reading j => rfl
      | counted r => exact held_counted_iff hat b r
      | temp k => exact (hobj k b).trans (by simp [hb, Held])
      | deallocated => rfl
  have huses : ∀ obj r, (l.setStore (l.store.countBuffer.construct
      (.temp (.fetched l.store.next_buffer) none))).Uses obj r → l.Named obj r := by
    rintro obj r (hu | hu)
    · rcases List.mem_append.mp hu with hu | hu
      · exact h.named obj r (.inl hu)
      · cases List.mem_singleton.mp hu
    · exact h.named obj r (.inr hu)
  exact h.recount (h.toPlaced.keep hat hheld huses)
    rfl rfl rfl h.log hat (fun r => by rw [hrefs]; rfl)
    (fun t task hu => ⟨hu, (hrefs _).trans (h.hand t task hu).2.2⟩)
    fun i b hi => (hrefs _).trans (h.zero i b hi)

lemma drop_cases (s : Store T) (o : CachedObject) :
    (∃ obj ref, o = .counted obj ref ∧ s.drop o = s.setCounter ref (s.counter ref - 1)) ∨
    (∃ b pre, o = .temp (.fetched b) pre ∧ s.drop o = s.deallocate (some b)) ∨
    ((∀ obj ref, o ≠ .counted obj ref) ∧ (∀ b pre, o ≠ .temp (.fetched b) pre) ∧
      s.drop o = s) := by
  cases o with
  | empty => exact .inr (.inr ⟨by simp, by simp, rfl⟩)
  | counted obj ref => exact .inl ⟨obj, ref, rfl, rfl⟩
  | temp obj pre =>
    cases obj with
    | fetched b =>
      refine .inr (.inl ⟨b, pre, rfl, ?_⟩)
      cases pre <;> simp [Store.drop]
    | prealloc n =>
      refine .inr (.inr ⟨by simp, by simp, ?_⟩)
      simp only [Store.drop, ite_self]

/-- The objects after one of them has been emptied. -/
lemma set_empty_temp_iff {os : List CachedObject} {k : ℕ} (j b : ℕ) (pre : Option ℕ) :
    (os.set k .empty)[j]? = some (.temp (.fetched b) pre) ↔
      j ≠ k ∧ os[j]? = some (.temp (.fetched b) pre) := by
  rw [List.getElem?_set]
  by_cases hj : k = j
  · subst hj
    simp only [if_true, ne_eq, not_true_eq_false, false_and, iff_false]
    split_ifs <;> simp
  · simp [hj, Ne.symm hj]

lemma uses_set_empty {k : ℕ} {s : Store T} (hs : s.objects = l.store.objects.set k .empty)
    {obj : Option ℕ} (hu : (l.setStore s).Uses obj ref) : l.Uses obj ref := by
  rcases hu with hu | hu
  · rw [setStore_store, hs] at hu
    rcases List.mem_or_eq_of_mem_set hu with hu | hu
    · exact .inl hu
    · cases hu
  · exact .inr hu

lemma references_set_empty {k : ℕ} {o : CachedObject} {s : Store T}
    (hk : l.store.objects[k]? = some o) (hs : s.objects = l.store.objects.set k .empty) (r : Ref) :
    (l.setStore s).references r + (if o.counts r then 1 else 0) = l.references r := by
  have hr := references_setObject l hk .empty r
  have hsame : (l.setStore s).references r =
      (l.setStore (l.store.setObject k .empty)).references r := references_congr r hs rfl
  rw [hsame, hr]
  simp [CachedObject.counts]

lemma books_drop (h : Books l) {k : ℕ} {o : CachedObject} (hk : l.store.objects[k]? = some o) :
    Books (l.setStore ((l.store.drop o).setObject k .empty)) := by
  have hmem : o ∈ l.store.objects := List.mem_of_getElem? hk
  rcases drop_cases l.store o with ⟨obj, ref, rfl, hd⟩ | ⟨b, pre, rfl, hd⟩ | ⟨hc, ho, hd⟩ <;>
    rw [hd]
  · have hobj : ((l.store.setCounter ref (l.store.counter ref - 1)).setObject k .empty).objects =
        l.store.objects.set k .empty := rfl
    have hrefs := references_set_empty hk hobj
    have hat : ∀ r e, (l.setStore ((l.store.setCounter ref
        (l.store.counter ref - 1)).setObject k .empty)).At r e ↔ l.At r e := by
      intro r e
      cases e <;> rfl
    have hle : ∀ r, l.references r = 0 → (l.setStore ((l.store.setCounter ref
        (l.store.counter ref - 1)).setObject k .empty)).references r = 0 := by
      intro r hr
      have := hrefs r
      omega
    refine h.recount (h.toPlaced.same hat (fun _ => rfl) (fun j b pre => ?_) rfl rfl
      fun obj r hu => h.named obj r (uses_set_empty hobj hu)) rfl rfl rfl h.log hat (fun r => ?_)
      (fun t task hu => ⟨hu, hle _ (h.hand t task hu).2.2⟩) fun i b hi => hle _ (h.zero i b hi)
    · refine (set_empty_temp_iff j b pre).trans (and_iff_right_of_imp ?_)
      rintro hj rfl
      cases hk.symm.trans hj
    · have hr := hrefs r
      simp only [CachedObject.counts, decide_eq_true_eq] at hr
      by_cases hrr : ref = r
      · subst hrr
        have hc : (l.setStore ((l.store.setCounter ref (l.store.counter ref - 1)).setObject k
            .empty)).store.counter ref = l.store.counter ref - 1 := Function.update_self ..
        rw [if_pos rfl] at hr
        omega
      · have hc : (l.setStore ((l.store.setCounter ref (l.store.counter ref - 1)).setObject k
            .empty)).store.counter r = l.store.counter r :=
          Function.update_of_ne (Ne.symm hrr) ..
        rw [if_neg hrr] at hr
        omega
  · have hobj : ((l.store.deallocate (some b)).setObject k .empty).objects =
        l.store.objects.set k .empty := rfl
    have hrefs : ∀ r, (l.setStore ((l.store.deallocate (some b)).setObject k .empty)).references r =
        l.references r := references_set_empty hk hobj
    have hat : ∀ r e, (l.setStore ((l.store.deallocate (some b)).setObject k .empty)).At r e ↔
        l.At r e := by
      intro r e
      cases e <;> rfl
    have hown : l.Held b (.temp k) := ⟨pre, hk⟩
    have hnew : ∀ c, l.Held b c → c = .temp k := fun c hc => h.held_unique hc hown
    have hheld : ∀ x, ∃! c, (l.setStore ((l.store.deallocate (some b)).setObject k
        .empty)).Held x c := by
      refine existsUnique_move h.buffers (x := b) (d := .deallocated) (fun c => ?_)
        fun x hx c => ?_
      · cases c with
        | unfetched => exact iff_of_false (fun hc => by cases hnew .unfetched hc) (by rintro ⟨⟩)
        | reading j => exact iff_of_false (fun hc => by cases hnew (.reading j) hc) (by rintro ⟨⟩)
        | counted r =>
          refine iff_of_false (fun hc => ?_) (by rintro ⟨⟩)
          cases hnew _ ((held_counted_iff hat _ r).mp hc)
        | temp j =>
          refine iff_of_false ?_ (by rintro ⟨⟩)
          rintro ⟨pre', hj⟩
          obtain ⟨hne, hj⟩ := (set_empty_temp_iff j b pre').mp hj
          exact hne (Custody.temp.inj (hnew (.temp j) ⟨pre', hj⟩))
        | deallocated => exact iff_of_true List.mem_cons_self rfl
      · cases c with
        | unfetched => rfl
        | reading j => rfl
        | counted r => exact held_counted_iff hat x r
        | temp j =>
          refine exists_congr fun pre' => (set_empty_temp_iff j x pre').trans
            (and_iff_right_of_imp ?_)
          rintro hj rfl
          cases hk.symm.trans hj
          exact hx rfl
        | deallocated => simp [Held, Store.deallocate, Store.setObject, hx]
    have hlog : (l.setStore ((l.store.deallocate (some b)).setObject k
        .empty)).store.deallocations.Nodup := by
      refine List.nodup_cons.mpr ⟨fun hm => ?_, h.log⟩
      cases hnew .deallocated hm
    exact h.recount (h.toPlaced.keep hat hheld fun obj r hu => h.named obj r
      (uses_set_empty hobj hu)) rfl rfl rfl hlog hat (fun r => by rw [hrefs]; rfl)
      (fun t task hu => ⟨hu, (hrefs _).trans (h.hand t task hu).2.2⟩)
      fun i x hi => (hrefs _).trans (h.zero i x hi)
  · have hobj : (l.store.setObject k .empty).objects = l.store.objects.set k .empty := rfl
    have hcounts : ∀ r, o.counts r = false := by
      intro r
      cases o with
      | counted obj ref => exact absurd rfl (hc obj ref)
      | empty | temp => rfl
    have hrefs : ∀ r, (l.setStore (l.store.setObject k .empty)).references r =
        l.references r := by
      intro r
      have := references_set_empty hk hobj r
      simpa [hcounts] using this
    have hat : ∀ r e, (l.setStore (l.store.setObject k .empty)).At r e ↔ l.At r e := by
      intro r e
      cases e <;> rfl
    refine h.recount (h.toPlaced.same hat (fun _ => rfl) (fun j b pre => ?_) rfl rfl
      fun obj r hu => h.named obj r (uses_set_empty hobj hu)) rfl rfl rfl h.log hat
      (fun r => by rw [hrefs]; rfl) (fun t task hu => ⟨hu, (hrefs _).trans (h.hand t task hu).2.2⟩)
      fun i b hi => (hrefs _).trans (h.zero i b hi)
    refine (set_empty_temp_iff j b pre).trans (and_iff_right_of_imp ?_)
    rintro hj rfl
    exact ho b pre (Option.some.inj (hk.symm.trans hj))

lemma books_move (h : Books l) {k j : ℕ} {o : CachedObject} (hkj : k ≠ j)
    (hk : l.store.objects[k]? = some .empty) (hj : l.store.objects[j]? = some o) :
    Books (l.setStore ((l.store.setObject k o).setObject j .empty)) := by
  have hget : ∀ i, ((l.store.objects.set k o).set j .empty)[i]? =
      if i = j then some .empty else if i = k then some o else l.store.objects[i]? := by
    intro i
    have hkl := (List.getElem?_eq_some_iff.mp hk).1
    have hjl := (List.getElem?_eq_some_iff.mp hj).1
    rw [List.getElem?_set, List.getElem?_set]
    by_cases hij : i = j
    · subst hij
      simp [hjl]
    · by_cases hik : i = k
      · subst hik
        simp [hij, Ne.symm hij, hkl]
      · simp [hij, hik, Ne.symm hij, Ne.symm hik]
  have hrefs : ∀ r, (l.setStore ((l.store.setObject k o).setObject j .empty)).references r =
      l.references r := by
    intro r
    have h1 := references_setObject l hk o r
    have h2 := references_setObject (l.setStore (l.store.setObject k o)) (k := j)
      (by simpa [Store.setObject, List.getElem?_set, hkj] using hj) .empty r
    simp only [CachedObject.counts, Bool.false_eq_true, if_false, Nat.add_zero, setStore_store] at h1 h2
    exact Nat.add_right_cancel (h2.trans h1)
  have hat : ∀ r e, (l.setStore ((l.store.setObject k o).setObject j .empty)).At r e ↔
      l.At r e := by
    intro r e
    cases e <;> rfl
  have huses : ∀ obj r, (l.setStore ((l.store.setObject k o).setObject j .empty)).Uses obj r →
      l.Named obj r := by
    rintro obj r (hu | hu)
    · rcases List.mem_or_eq_of_mem_set hu with hu | hu
      · rcases List.mem_or_eq_of_mem_set hu with hu | rfl
        · exact h.named obj r (.inl hu)
        · exact h.named obj r (.inl (List.mem_of_getElem? hj))
      · cases hu
    · exact h.named obj r (.inr hu)
  have htemp : ∀ i b pre, ((l.store.setObject k o).setObject j .empty).objects[i]? =
      some (.temp (.fetched b) pre) ↔ i ≠ j ∧ (i = k ∧ o = .temp (.fetched b) pre ∨
        i ≠ k ∧ l.store.objects[i]? = some (.temp (.fetched b) pre)) := by
    intro i b pre
    simp only [Store.setObject, hget]
    split_ifs with h1 h2
    · simp [h1]
    · simp [h2, hkj]
    · simp [h1, h2]
  have hplaced : Placed (l.setStore ((l.store.setObject k o).setObject j .empty)) := by
    by_cases ho : ∃ b pre, o = .temp (.fetched b) pre
    · obtain ⟨b, pre, rfl⟩ := ho
      have hown : l.Held b (.temp j) := ⟨pre, hj⟩
      have hnew : ∀ c, l.Held b c → c = .temp j := fun c hc => h.held_unique hc hown
      refine h.toPlaced.keep hat (existsUnique_move h.buffers (x := b) (d := .temp k)
        (fun c => ?_) fun x hx c => ?_) huses
      · cases c with
        | unfetched => exact iff_of_false (fun hc => by cases hnew .unfetched hc) (by rintro ⟨⟩)
        | reading i => exact iff_of_false (fun hc => by cases hnew (.reading i) hc) (by rintro ⟨⟩)
        | counted r =>
          refine iff_of_false (fun hc => ?_) (by rintro ⟨⟩)
          cases hnew _ ((held_counted_iff hat _ r).mp hc)
        | temp i =>
          constructor
          · rintro ⟨pre', hi⟩
            obtain ⟨hij, ⟨rfl, -⟩ | ⟨-, hi⟩⟩ := (htemp i b pre').mp hi
            · rfl
            · exact absurd (Custody.temp.inj (hnew (.temp i) ⟨pre', hi⟩)) hij
          · rintro ⟨⟩
            exact ⟨pre, (htemp k b pre).mpr ⟨hkj, .inl ⟨rfl, rfl⟩⟩⟩
        | deallocated => exact iff_of_false (fun hc => by cases hnew .deallocated hc) (by rintro ⟨⟩)
      · cases c with
        | unfetched => rfl
        | reading i => rfl
        | counted r => exact held_counted_iff hat x r
        | temp i =>
          refine exists_congr fun pre' => (htemp i x pre').trans ⟨?_, fun hi => ⟨?_, .inr ⟨?_, hi⟩⟩⟩
          · rintro ⟨-, ⟨-, ho⟩ | ⟨-, hi⟩⟩
            · cases ho
              exact absurd rfl hx
            · exact hi
          · rintro rfl
            cases hj.symm.trans hi
            exact hx rfl
          · rintro rfl
            cases hk.symm.trans hi
        | deallocated => rfl
    · refine h.toPlaced.same hat (fun _ => rfl) (fun i b pre => ?_) rfl rfl huses
      refine (htemp i b pre).trans ⟨?_, fun hi => ⟨?_, .inr ⟨?_, hi⟩⟩⟩
      · rintro ⟨-, ⟨-, rfl⟩ | ⟨-, hi⟩⟩
        · exact absurd ⟨b, pre, rfl⟩ ho
        · exact hi
      · rintro rfl
        exact ho ⟨b, pre, Option.some.inj (hj.symm.trans hi)⟩
      · rintro rfl
        cases hk.symm.trans hi
  exact h.recount hplaced rfl rfl rfl h.log hat (fun r => by rw [hrefs]; rfl)
    (fun t task hu => ⟨hu, (hrefs _).trans (h.hand t task hu).2.2⟩)
    fun i b hi => (hrefs _).trans (h.zero i b hi)

theorem books_step (h : Books l) (hs : Step l l') : Books l' := by
  cases hs with
  | rotate hp => exact books_rotate h hp
  | take hr hp hz => exact books_take h hr hp hz
  | free hr => exact books_free h hr
  | fetch hk => exact books_fetch h hk
  | decrement hk => exact books_decrement h hk
  | zero hk hz => exact books_zero h hk hz
  | enqueue t hk hb hptr href => exact books_enqueue h t hk hb hptr href
  | @recycle i b t hk hb =>
    have hd := at_line_of_kept (l := l) i (by simp [hk, Phase.isGone])
    rw [hb] at hd
    have hg := books_gone h t hk (h.references_eq_zero hd rfl)
    rw [hb] at hg
    exact hg
  | freeOld t hk => exact books_gone h t hk (h.zero _ _ hk)
  | install t hk => exact books_install h t hk
  | increment hr hk hb => exact books_increment h hr hk hb
  | finish hr => exact books_finish h hr
  | temp => exact books_temp h
  | construct o hc ho => exact books_construct h o hc ho
  | drop hk => exact books_drop h hk
  | move hkj hk hj => exact books_move h hkj hk hj

end ObjectCache.Cache.Buffers.Ledger
