import ObjectCache.LockFree.Frame

/-! Every step keeps the bottom level in order and what every call knows. -/

set_option linter.unusedSectionVars false

namespace ObjectCache.LockFree

open Lib StateTransition

variable {A V T : Type} [DecidableEq A] [DecidableEq T] {c : Config A} {r : Trace c V T} {t : T} {i : ℕ}
  {v : Vars A V} {l' : Local A V} {m : Memory A V} {a n q pred curr : A} {level : ℕ} {p : Ptr A} {site : Site A}

lemma thread_of_opens {a : Act A V T} (h : opens t a) : a.thread = t := by
  cases a with
  | call u op => exact h
  | _ => cases h

lemma linked_succ_none (h : links (r.state i) (r.act i) = none) : r.linked (i + 1) = r.linked i := by
  rw [Trace.linked]
  simp [h]

lemma linked_succ_some (h : links (r.state i) (r.act i) = some n) :
    r.linked (i + 1) = insert n (r.linked i) := by
  rw [Trace.linked, h]
  ext x
  simp [eq_comm]

lemma PcOk.new {pc : Pc A V} (h : PcOk r t i v pc) (ho : pc.owns = some n) : New r t i v n := by
  have hsite : ∀ {site : Site A} {level pred}, Searches r t i v site level pred →
      site.owns = some n → New r t i v n := by
    intro site level pred hs ho
    have hok := hs.site
    cases site with
    | insert newNode =>
      cases ho
      exact hok
    | _ => cases ho
  cases pc with
  | load site level pred => exact hsite h ho
  | next site level pred curr => exact hsite h.1 ho
  | snip site level pred curr succ => exact hsite h.1 ho
  | store newNode level =>
    cases ho
    exact h.1
  | linkBottom newNode =>
    cases ho
    exact h.1
  | _ => cases ho

lemma Inv.private (h : Inv r i) (ho : ((r.state i).thread t).pc.owns = some n) :
    Private c (r.linked i) (r.memory i) n :=
  ((h.ok t).new ho).own

/-- What a step does and leaves. -/
structure Kept (r : Trace c V T) (i : ℕ) : Prop where
  carries : Carries r i
  inv : Inv r (i + 1)

section Put

variable (h : Inv r i) (hs : r.state (i + 1) = (r.state i).put m t l') (ht : (r.act i).thread = t)

include hs

lemma thread_self : (r.state (i + 1)).thread t = l' := by
  rw [hs]
  exact Function.update_self ..

lemma thread_other {u : T} (hu : u ≠ t) : (r.state (i + 1)).thread u = (r.state i).thread u := by
  rw [hs]
  exact Function.update_of_ne hu ..

lemma memory_succ : r.memory (i + 1) = m := by
  rw [Trace.memory, hs]
  rfl

include h ht

lemma Inv.put (hc : Carries r i) (hlegal : l'.op.Legal) (hok : PcOk r t (i + 1) l'.toVars l'.pc)
    (howns : ∀ n, l'.pc.owns = some n →
      ((r.state i).thread t).pc.owns = some n ∨ n ∉ (r.memory i).allocated)
    (hothers : ∀ u, u ≠ t → ∀ n, ((r.state i).thread u).pc.owns = some n →
      (r.memory (i + 1)).next n = (r.memory i).next n ∧ n ∉ r.linked (i + 1)) : Kept r i where
  carries := hc
  inv :=
    { shape := hc.after
      legal u := by
        by_cases hu : u = t
        · rw [hu, thread_self hs]
          exact hlegal
        · rw [thread_other hs hu]
          exact h.legal u
      ok u := by
        by_cases hu : u = t
        · subst hu
          rw [thread_self hs]
          exact hok
        · have hframe : Frame r u i :=
            ⟨hc, fun ho => hu ((thread_of_opens ho).symm.trans ht),
              fun he => absurd (he.symm.trans ht) hu, fun he => absurd (he.symm.trans ht) hu⟩
          rw [thread_other hs hu]
          exact (h.ok u).frame hframe (hothers u hu)
      owns {u w n} hn hn' := by
        have hself : ∀ {x}, ((r.state (i + 1)).thread x).pc.owns = some n → x = t ∨
            x ≠ t ∧ ((r.state i).thread x).pc.owns = some n := by
          intro x hx
          by_cases hxt : x = t
          · exact .inl hxt
          · rw [thread_other hs hxt] at hx
            exact .inr ⟨hxt, hx⟩
        have hmix : ∀ {x}, x ≠ t → ((r.state i).thread x).pc.owns = some n →
            ((r.state (i + 1)).thread t).pc.owns = some n → x = t := by
          intro x hx hold hnew
          rw [thread_self hs] at hnew
          rcases howns n hnew with ho | ho
          · exact h.owns hold ho
          · exact absurd (h.private hold).allocated ho
        rcases hself hn with rfl | ⟨hu, ho⟩
        · rcases hself hn' with rfl | ⟨hw, ho'⟩
          · rfl
          · exact (hmix hw ho' hn).symm
        · rcases hself hn' with rfl | ⟨-, ho'⟩
          · exact hmix hu ho hn'
          · exact h.owns ho ho' }

end Put

/-- A step that leaves the memory alone. -/
lemma Carries.quiet (h : Shape c (r.linked i) (r.memory i)) (hm : r.memory (i + 1) = r.memory i)
    (hl : links (r.state i) (r.act i) = none) : Carries r i where
  before := h
  after := by
    rw [linked_succ_none hl, hm]
    exact h
  node n _ := by rw [hm]
  allocated := by rw [hm]; exact fun _ => id
  frozen n _ level _ := by rw [hm]
  kept n _ q hq := by rw [← hm, hq]
  marked n _ hmarked := .inl (by rwa [hm] at hmarked)

/-- A write to an unmarked word. -/
lemma Carries.write (h : Shape c (r.linked i) (r.memory i))
    (hafter : Shape c (r.linked (i + 1)) (r.memory (i + 1)))
    (hm : r.memory (i + 1) = (r.memory i).setNext a level p)
    (hold : ((r.memory i).next a level).marked = false)
    (hmark : level = 0 → p.marked → p.node = ((r.memory i).next a 0).node ∧
      marks (r.state i) (r.act i) = some a) : Carries r i where
  before := h
  after := hafter
  node n _ := by rw [hm]; rfl
  allocated := by rw [hm]; exact fun _ => id
  frozen n _ k hk := by
    rw [hm, setNext_other]
    rintro ⟨rfl, rfl⟩
    rw [hold] at hk
    cases hk
  kept n _ q hq := by
    rw [hm, setNext_next] at hq
    split_ifs at hq with hz
    · obtain ⟨rfl, rfl⟩ := hz
      obtain ⟨hnode, -⟩ := hmark rfl (by rw [hq])
      rw [← hnode, hq]
    · rw [hq]
  marked n _ hn := by
    rw [hm, setNext_next] at hn
    split_ifs at hn with hz
    · obtain ⟨rfl, rfl⟩ := hz
      exact .inr (hmark rfl hn).2
    · exact .inl hn

/-! ### Steps of a thread -/

section Own

variable (h : Inv r i) {spurious : Bool} (ha : r.act i = .next t spurious)

include h ha

lemma Inv.quiet (hs : r.state (i + 1) = (r.state i).put (r.memory i) t l')
    (hop : l'.op = ((r.state i).thread t).op)
    (hl : links (r.state i) (.next t spurious) = none)
    (hk : marks (r.state i) (.next t spurious) = none)
    (howns : l'.pc.owns = none ∨ l'.pc.owns = ((r.state i).thread t).pc.owns)
    (hok : Shape c (r.linked (i + 1)) (r.memory (i + 1)) → r.memory (i + 1) = r.memory i →
      PcOk r t (i + 1) ((r.state i).thread t).toVars ((r.state i).thread t).pc →
      PcOk r t (i + 1) l'.toVars l'.pc) : Kept r i := by
  have hm := memory_succ hs
  rw [← ha] at hl hk
  have hlinked := linked_succ_none hl
  have hc := Carries.quiet h.shape hm hl
  have hframe : Frame r t i := ⟨hc, by rw [ha]; exact id, fun _ => hl, fun _ => hk⟩
  have hkeep : ∀ u n, ((r.state i).thread u).pc.owns = some n →
      (r.memory (i + 1)).next n = (r.memory i).next n ∧ n ∉ r.linked (i + 1) := by
    intro u n ho
    rw [hm, hlinked]
    exact ⟨rfl, (h.private ho).not_linked⟩
  refine h.put hs (by rw [ha]; rfl) hc (by rw [hop]; exact h.legal t)
    (hok hc.after hm ((h.ok t).frame hframe (hkeep t))) (fun n hn => ?_) fun u _ => hkeep u
  rcases howns with ho | ho
  · rw [ho] at hn
    cases hn
  · rw [ho] at hn
    exact .inl hn

/-- A write to a linked node. -/
lemma Inv.write {pc : Pc A V}
    (hs : r.state (i + 1) = (r.state i).put ((r.memory i).setNext a level p) t
      (((r.state i).thread t).goto pc))
    (hl : links (r.state i) (.next t spurious) = none)
    (hlinked : a ∈ r.linked i) (hold : ((r.memory i).next a level).marked = false)
    (hmark : level = 0 → p.marked → p.node = ((r.memory i).next a 0).node ∧
      marks (r.state i) (.next t spurious) = some a)
    (hafter : Shape c (r.linked i) ((r.memory i).setNext a level p))
    (howns : pc.owns = none ∨ pc.owns = ((r.state i).thread t).pc.owns)
    (hok : Carries r i → (∀ n, ((r.state i).thread t).pc.owns = some n →
      (r.memory (i + 1)).next n = (r.memory i).next n ∧ n ∉ r.linked (i + 1)) →
      PcOk r t (i + 1) ((r.state i).thread t).toVars pc) : Kept r i := by
  have hm := memory_succ hs
  rw [← ha] at hl hmark
  have hsame := linked_succ_none hl
  rw [← hsame, ← hm] at hafter
  have hc := Carries.write h.shape hafter hm hold hmark
  have hkeep : ∀ u n, ((r.state i).thread u).pc.owns = some n →
      (r.memory (i + 1)).next n = (r.memory i).next n ∧ n ∉ r.linked (i + 1) := by
    intro u n ho
    have hn := (h.private ho).not_linked
    rw [hsame, hm]
    refine ⟨funext fun k => setNext_other ?_, hn⟩
    rintro ⟨rfl, -⟩
    exact hn hlinked
  refine h.put hs (by rw [ha]; rfl) hc (h.legal t) (hok hc (hkeep t)) (fun n hn => ?_)
    fun u _ => hkeep u
  rcases howns with ho | ho
  · rw [show (((r.state i).thread t).goto pc).pc.owns = pc.owns from rfl, ho] at hn
    cases hn
  · rw [show (((r.state i).thread t).goto pc).pc.owns = pc.owns from rfl, ho] at hn
    exact .inl hn

end Own

/-! ### What a thread knows where it goes on -/

section Goes

variable {ret : Ret V} {op : Op V}

lemma answer_find (hop : ∃ lb ub, op = .find lb ub)
    (h : ret = .bool true ∧ Overlapped r t i op ∨ ret = .bool false ∧ Cleared r t i op) :
    Answer r t i op ret := by
  obtain ⟨lb, ub, rfl⟩ := hop
  exact h

lemma answer_insert (hop : ∃ lb ub x, op = .insert lb ub x)
    (h : ret = .bool true ∧ HasLinked r t i op ∨
      ret = .bool false ∧ NoLink r t i ∧ Overlapped r t i op) : Answer r t i op ret := by
  obtain ⟨lb, ub, x, rfl⟩ := hop
  exact h

lemma answer_remove (hop : ∃ lb ub, op = .remove lb ub)
    (h : (∃ value, ret = .pointer value ∧ HasMarked r t i op value) ∨
      ret = .pointer none ∧ NoMark r t i ∧ (Cleared r t i op ∨ Lost r t i op)) :
    Answer r t i op ret := by
  obtain ⟨lb, ub, rfl⟩ := hop
  exact h

lemma head_live (h : Shape c (r.linked i) (r.memory i)) : Live c (r.memory i) c.head :=
  h.live h.head (h.head_unmarked 0)

lemma retry_ok (h : Shape c (r.linked i) (r.memory i)) (hlegal : v.op.Legal)
    (hs : site.Ok r t i v) : PcOk r t i v (retry c site) where
  site := hs
  linked := h.head
  high := by
    rw [h.head_node]
    exact hlegal.low
  top := by
    rw [h.head_node]
    exact Nat.sub_le _ _
  max := by decide
  arrays := ⟨fun k hk hm => absurd hm (Nat.not_lt.mpr hk), fun k hk hm => absurd hm (Nat.not_lt.mpr hk)⟩
  recent := .now h (head_live h)

lemma below_ok (hv : Victim r t i v n) (hm : MarkedAbove r i n level) :
    PcOk r t i v (below n level) := by
  cases level with
  | zero => exact ⟨hv, hm⟩
  | succ level => exact ⟨hv, Nat.succ_le_succ (Nat.zero_le _), hm⟩

lemma above_ok (hi : Inserted r t i v n) (ha : Arrays r i v 0) (hlevel : 1 ≤ level)
    (hn : m.node n = (r.memory i).node n) : PcOk r t i v (above m n level) := by
  rw [above, hn]
  split_ifs with hle
  · exact ⟨⟨hi, hlevel, hle⟩, ha⟩
  · exact answer_insert ⟨_, _, _, hi.op⟩ (.inl ⟨rfl, hi.did⟩)

lemma Site.Ok.stop (h : site.Ok r t i v) : site.Ok r t i (v.stop level pred curr) := by
  cases site with
  | find => exact h
  | insert newNode =>
    have hn : New r t i v newNode := h
    exact ⟨⟨hn.op, hn.top⟩, hn.own, hn.no_link⟩
  | link newNode level =>
    obtain ⟨hi, hlevel⟩ := h
    exact ⟨⟨⟨hi.op, hi.top⟩, hi.target, hi.did⟩, hlevel⟩
  | remove => exact h
  | unlink nodeToRemove => exact h

section Stop

variable (h : Shape c (r.linked i) (r.memory i)) (hs : Searches r t i v site level pred)
  (hc : Target c (r.linked i) (r.memory i) level curr)

include hs hc

/-- The arrays with the level where a search has stopped. -/
lemma Searches.stop : Arrays r i (v.stop level pred curr) level where
  pred k hk hm := by
    by_cases he : k = level
    · subst he
      simp only [Vars.stop, Function.update_self]
      exact ⟨hs.linked, hs.top⟩
    · simp only [Vars.stop, Function.update_of_ne he]
      exact hs.arrays.pred k (by omega) hm
  succ k hk hm := by
    by_cases he : k = level
    · subst he
      simp only [Vars.stop, Function.update_self]
      exact hc
    · simp only [Vars.stop, Function.update_of_ne he]
      exact hs.arrays.succ k (by omega) hm

include h

/-- The node that a search goes on to, live as it is read. -/
lemma Searches.live (hw : ((r.memory i).next curr level).marked = false) :
    Live c (r.memory i) curr :=
  h.live hc.linked (h.bottom_unmarked hc.linked hc.level hw)

lemma Searches.less (hw : ((r.memory i).next curr level).marked = false)
    (hl : ((r.memory i).node curr).is_less_than v.op.key_lb v.op.key_ub) :
    Searches r t i v site level curr where
  site := hs.site
  linked := hc.linked
  high := (is_less_than_iff.mp hl).2
  top := hc.level
  max := hs.max
  arrays := hs.arrays
  recent := .now h (hs.live h hc hw)

end Stop

section Found

variable (h : Shape c (r.linked i) (r.memory i)) (hs : Searches r t i v site 0 pred)
  (hc : Target c (r.linked i) (r.memory i) 0 curr) (hp : Passed r t i pred curr)
  (hw : ((r.memory i).next curr 0).marked = false)

include hs hp

lemma Searches.cleared (hl : ((r.memory i).node curr).is_less_than v.op.key_lb v.op.key_ub = false)
    (he : ((r.memory i).node curr).is_equal v.op.key_lb v.op.key_ub = false) :
    Cleared r t i v.op := by
  refine Machine.Run.During.mono hp fun k _ hk => ?_
  exact hk _ _ hs.high (low_of_not_equal hl he)

omit hp
include h hc hw

lemma Searches.overlapped
    (he : ((r.memory i).node curr).is_equal v.op.key_lb v.op.key_ub) : Overlapped r t i v.op :=
  Machine.Run.During.now ⟨curr, hs.live h hc hw, he⟩

lemma Searches.victim (hop : ∃ lb ub, v.op = .remove lb ub) (hno : NoMark r t i)
    (hlegal : v.op.Legal)
    (he : ((r.memory i).node curr).is_equal v.op.key_lb v.op.key_ub) :
    Victim r t i (v.stop 0 pred curr) curr where
  op := hop
  succ := by simp [Vars.stop]
  linked := hc.linked
  not_head := hc.not_head
  not_tail := by
    rintro rfl
    rw [is_equal_iff, h.tail_node] at he
    exact absurd he.1 (not_lt.mpr hlegal.high)
  equal := he
  no_mark := hno
  lost hm := by
    rw [hw] at hm
    cases hm

include hp

/-- Where a search that has reached the bottom goes on. -/
lemma Searches.found (hlegal : v.op.Legal) (hn : m.node = (r.memory i).node)
    (hl : ((r.memory i).node curr).is_less_than v.op.key_lb v.op.key_ub = false) :
    PcOk r t i (v.stop 0 pred curr) (found m (v.stop 0 pred curr)
      (((r.memory i).node curr).is_equal v.op.key_lb v.op.key_ub) site) := by
  have harrays := hs.stop hc
  have hok : site.Ok r t i (v.stop 0 pred curr) := hs.site.stop
  cases he : ((r.memory i).node curr).is_equal v.op.key_lb v.op.key_ub with
  | true =>
    have hover := hs.overlapped h hc hw he
    cases site with
    | find => exact answer_find hok (.inl ⟨rfl, hover⟩)
    | insert newNode => exact answer_insert ⟨_, _, _, hok.op⟩ (.inr ⟨rfl, hok.no_link, hover⟩)
    | link newNode level => exact ⟨hok, harrays⟩
    | remove =>
      have hv := hs.victim h hc hw hok.1 hok.2 hlegal he
      have hsucc : (v.stop 0 pred curr).succs 0 = curr := hv.succ
      simp only [LockFree.found, if_true, hsucc, hn]
      exact below_ok hv fun k hk hle => absurd hle (Nat.not_le.mpr hk)
    | unlink nodeToRemove =>
      refine answer_remove hok.1 (.inl ⟨_, rfl, ?_⟩)
      rw [hn]
      exact hok.2.2
  | false =>
    have hclear := hs.cleared hp hl he
    cases site with
    | find => exact answer_find hok (.inr ⟨rfl, hclear⟩)
    | insert newNode =>
      refine ⟨hok, ⟨harrays, ?_, ?_⟩, Nat.zero_le _, fun k hk => absurd hk (Nat.not_lt_zero k)⟩
      · simp only [Vars.stop, Function.update_self]
        exact hs.high
      · simp only [Vars.stop, Function.update_self]
        exact low_of_not_equal hl he
    | link newNode level => exact ⟨hok, harrays⟩
    | remove => exact answer_remove hok.1 (.inr ⟨rfl, hok.2, .inl hclear⟩)
    | unlink nodeToRemove =>
      refine answer_remove hok.1 (.inl ⟨_, rfl, ?_⟩)
      rw [hn]
      exact hok.2.2

end Found

/-- A search hands its thread's own node on, if it has one. -/
lemma found_owns {b : Bool} {pred curr : A} :
    (LockFree.found m v b site : Pc A V).owns = none ∨
      (LockFree.found m v b site : Pc A V).owns = (Pc.next site level pred curr : Pc A V).owns := by
  cases site with
  | find => exact .inl rfl
  | insert newNode =>
    cases b with
    | false => exact .inr rfl
    | true => exact .inl rfl
  | link newNode level => exact .inl rfl
  | remove =>
    cases b with
    | false => exact .inl rfl
    | true =>
      left
      simp only [LockFree.found, if_true]
      cases (m.node (v.succs 0)).topLevel <;> rfl
  | unlink nodeToRemove => exact .inl rfl

end Goes

/-! ### Every step -/

section Advance

variable (h : Inv r i) {spurious : Bool} (ha : r.act i = .next t spurious)

include h ha

lemma Inv.frame (hc : Carries r i) (hl : links (r.state i) (.next t spurious) = none)
    (hk : marks (r.state i) (.next t spurious) = none) : Frame r t i :=
  ⟨hc, by rw [ha]; exact id, fun _ => by rw [ha]; exact hl, fun _ => by rw [ha]; exact hk⟩

/-- The step that links a node on the bottom level. -/
lemma Inv.linkBottom (hpc : ((r.state i).thread t).pc = .linkBottom n)
    (hcas : cas (r.memory i) spurious (((r.state i).thread t).preds 0) 0
      (some (((r.state i).thread t).succs 0)))
    (hs : r.state (i + 1) = (r.state i).put
      ((r.memory i).setNext (((r.state i).thread t).preds 0) 0 ⟨some n, false⟩) t
      (((r.state i).thread t).goto (above (r.memory i) n 1))) : Kept r i := by
  have hok := h.ok t
  rw [hpc] at hok
  obtain ⟨hn, hg, hw⟩ := hok
  have hm := memory_succ hs
  have hl : links (r.state i) (r.act i) = some n := by simp [ha, links, hpc, hcas]
  have hlinked := linked_succ_some hl
  have hword := next_of_cas hcas
  have hpred := (hg.arrays.pred 0 le_rfl (by decide)).1
  have hlb : ((r.state i).thread t).op.key_lb = ((r.memory i).node n).key_low := by rw [hn.op]; rfl
  have hub : ((r.state i).thread t).op.key_ub = ((r.memory i).node n).key_high := by rw [hn.op]; rfl
  have hlive := h.shape.live hpred (by rw [hword])
  have hclear : Clear c (r.memory i) ((r.state i).thread t).op.key_lb ((r.state i).thread t).op.key_ub :=
    h.shape.clear hlive.reach (by rw [Memory.bottom, hword]) hg.low hg.high
  have hafter := h.shape.publish hpred hn.own ((h.legal t).range _ _ _ hn.op).le
    (fun k hk => by rw [hw k hk]; simp) hword (hw 0 (Nat.zero_le _)) (hlb ▸ hg.low) (hub ▸ hg.high)
  rw [← hlinked, ← hm] at hafter
  have hc := Carries.write h.shape hafter hm (by rw [hword]) (by simp)
  have hnot : ¬ opens t (r.act i) := by rw [ha]; exact id
  have hdid : HasLinked r t (i + 1) ((r.state i).thread t).op :=
    ⟨Machine.Run.Once.first hn.no_link hnot,
      Machine.Run.Did.step ⟨by rw [ha]; rfl, n, hl, hn.op, hclear⟩ hnot⟩
  have hnh : n ≠ c.head := by
    rintro rfl
    exact hn.own.not_linked h.shape.head
  have hnew : Inserted r t (i + 1) ((r.state i).thread t).toVars n := by
    refine ⟨hn.toDescribes.frame hc hn.own.allocated, fun k hk => ⟨?_, hk, hnh⟩, hdid⟩
    rw [hlinked]
    exact .inl rfl
  refine h.put hs (by rw [ha]; rfl) hc (h.legal t) ?_ ?_ ?_
  · exact above_ok hnew (hg.arrays.frame hc) le_rfl (hc.node n hn.own.allocated).symm
  · intro x hx
    simp only [Local.goto, above] at hx
    split_ifs at hx <;> cases hx
  · intro u hu x hx
    have hxn : x ≠ n := by
      rintro rfl
      exact hu (h.owns hx (by rw [hpc]; rfl))
    have hx' := (h.private hx).not_linked
    refine ⟨?_, ?_⟩
    · rw [hm]
      refine funext fun k => setNext_other ?_
      rintro ⟨rfl, -⟩
      exact hx' hpred
    · rw [hlinked]
      rintro (rfl | hmem)
      · exact hxn rfl
      · exact hx' hmem

/-- A store to the thread's own node. -/
lemma Inv.store {pc : Pc A V} (hpc : ((r.state i).thread t).pc = .store n level)
    (hs : r.state (i + 1) = (r.state i).put
      ((r.memory i).setNext n level ⟨some (((r.state i).thread t).succs level), false⟩) t
      (((r.state i).thread t).goto pc))
    (howns : pc.owns = some n)
    (hok : New r t (i + 1) ((r.state i).thread t).toVars n → Gap r (i + 1) ((r.state i).thread t).toVars →
      (∀ k < level + 1, (r.memory (i + 1)).next n k = ⟨some (((r.state i).thread t).succs k), false⟩) →
      (r.memory (i + 1)).node n = (r.memory i).node n →
      PcOk r t (i + 1) ((r.state i).thread t).toVars pc) : Kept r i := by
  have hold := h.ok t
  rw [hpc] at hold
  obtain ⟨hn, hg, hle, hw⟩ := hold
  have hm := memory_succ hs
  have hl : links (r.state i) (r.act i) = none := by simp [ha, links, hpc]
  have hk : marks (r.state i) (r.act i) = none := by simp [ha, marks, hpc]
  have hlinked := linked_succ_none hl
  have hafter : Shape c (r.linked (i + 1)) (r.memory (i + 1)) := by
    rw [hlinked, hm]
    refine h.shape.congr (fun _ _ => rfl) (fun x hx => funext fun k => setNext_other ?_) fun _ => id
    rintro ⟨rfl, -⟩
    exact hn.own.not_linked hx
  have hc := Carries.write h.shape hafter hm (hn.own.unmarked level) (by simp)
  have hframe : Frame r t i := ⟨hc, by rw [ha]; exact id, fun _ => hl, fun _ => hk⟩
  have htarget : Target c (r.linked i) (r.memory i) level (((r.state i).thread t).succs level) :=
    hg.arrays.succ level (Nat.zero_le _) (lt_of_le_of_lt hle hn.top)
  have hnew : New r t (i + 1) ((r.state i).thread t).toVars n := by
    refine ⟨hn.toDescribes.frame hc hn.own.allocated, ⟨?_, ?_, ?_, ?_⟩, hn.no_link.frame hframe⟩
    · rw [hlinked]
      exact hn.own.not_linked
    · exact hc.allocated hn.own.allocated
    · intro k
      rw [hm, setNext_next]
      split_ifs
      · rfl
      · exact hn.own.unmarked k
    · intro k q hq
      rw [hm, setNext_next] at hq
      split_ifs at hq with hz
      · cases hq
        rw [hz.2]
        exact hc.target htarget
      · exact hc.target (hn.own.target hq)
  refine h.put hs (by rw [ha]; rfl) hc (h.legal t) ?_ ?_ ?_
  · refine hok hnew (hg.frame hc) (fun k hk => ?_) (hc.node n hn.own.allocated)
    rw [hm, setNext_next]
    split_ifs with hz
    · rw [hz.2]
    · have hne : k ≠ level := fun he => hz ⟨rfl, he⟩
      exact hw k (by omega)
  · intro x hx
    left
    rw [hpc, ← hx]
    exact howns.symm
  · intro u hu x hx
    have hxn : x ≠ n := by
      rintro rfl
      exact hu (h.owns hx (by rw [hpc]; rfl))
    refine ⟨?_, by rw [hlinked]; exact (h.private hx).not_linked⟩
    rw [hm]
    refine funext fun k => setNext_other ?_
    rintro ⟨rfl, -⟩
    exact hxn rfl

lemma Inv.advance {m : Memory A V} {l' : Local A V}
    (hs : r.state (i + 1) = (r.state i).put m t l')
    (hadv : Advance c (r.memory i) ((r.state i).thread t) spurious m l') : Kept r i := by
  cases hadv with
  | @load site level pred curr hpc hn =>
    refine h.quiet ha hs rfl (by simp [links, hpc]) (by simp [marks, hpc]) (.inr (by rw [hpc]; rfl)) ?_
    intro hshape hm hok
    rw [hpc] at hok
    rw [← hm] at hn
    exact ⟨hok, hshape.target hok.linked hn, fun hz => hok.recent _ _ (by subst hz; rw [← hn])⟩
  | @marked site level pred curr succ hpc hw =>
    refine h.quiet ha hs rfl (by simp [links, hpc]) (by simp [marks, hpc]) (.inr (by rw [hpc]; rfl)) ?_
    intro hshape hm hok
    rw [hpc] at hok
    exact ⟨hok.1, hok.2.1, by rw [hm]; exact hw⟩
  | @less site level pred curr succ hpc hw hless =>
    refine h.quiet ha hs rfl (by simp [links, hpc]) (by simp [marks, hpc]) (.inr (by rw [hpc]; rfl)) ?_
    intro hshape hm hok
    rw [hpc] at hok
    rw [← hm] at hw hless
    obtain ⟨hsearch, hcurr, -⟩ := hok
    have hlive := hsearch.live hshape hcurr (by rw [hw])
    refine ⟨hsearch.less hshape hcurr (by rw [hw]) hless, hshape.target hcurr.linked (by rw [hw]), ?_⟩
    rintro rfl
    exact Passed.now hshape hlive (by rw [Memory.bottom, hw])
  | @down site level pred curr hpc hw hless =>
    refine h.quiet ha hs rfl (by simp [links, hpc]) (by simp [marks, hpc]) (.inr (by rw [hpc]; rfl)) ?_
    intro hshape hm hok
    rw [hpc] at hok
    obtain ⟨hsearch, hcurr, -⟩ := hok
    have hmax := hsearch.max
    have htop := hsearch.top
    exact ⟨hsearch.site.stop, hsearch.linked, hsearch.high, by omega, by omega, hsearch.stop hcurr,
      hsearch.recent⟩
  | @found site pred curr hpc hw hless =>
    have howns : (found (r.memory i) (((r.state i).thread t).stop 0 pred curr)
        (((r.memory i).node curr).is_equal ((r.state i).thread t).op.key_lb
          ((r.state i).thread t).op.key_ub) site).owns = none ∨
        (found (r.memory i) (((r.state i).thread t).stop 0 pred curr)
        (((r.memory i).node curr).is_equal ((r.state i).thread t).op.key_lb
          ((r.state i).thread t).op.key_ub) site).owns = ((r.state i).thread t).pc.owns := by
      rw [hpc]
      exact found_owns
    refine h.quiet ha hs rfl (by simp [links, hpc]) (by simp [marks, hpc]) howns ?_
    intro hshape hm hok
    rw [hpc] at hok
    obtain ⟨hsearch, hcurr, hp⟩ := hok
    rw [← hm] at hw hless ⊢
    exact hsearch.found hshape hcurr (hp rfl) hw (h.legal t) rfl hless
  | @snip site level pred curr succ hpc hw =>
    have hok := h.ok t
    rw [hpc] at hok
    obtain ⟨hsearch, hcurr, hword⟩ := hok
    have hl : links (r.state i) (.next t spurious) = none := by simp [links, hpc]
    have hk : marks (r.state i) (.next t spurious) = none := by simp [marks, hpc]
    refine h.write ha hs hl hsearch.linked (by rw [hw]) (by simp)
      (h.shape.snip hsearch.linked hcurr hsearch.max hw hword) (.inr (by rw [hpc]; rfl)) ?_
    intro hc hown
    refine hsearch.frame (h.frame ha hc hl hk) ?_
    rintro n rfl
    exact hown n (by rw [hpc]; rfl)
  | @retry site level pred curr succ hpc =>
    refine h.quiet ha hs rfl (by simp [links, hpc]) (by simp [marks, hpc]) (.inr (by rw [hpc]; rfl)) ?_
    intro hshape hm hok
    rw [hpc] at hok
    exact retry_ok hshape (h.legal t) hok.1.site
  | @store n level hpc hlt =>
    refine h.store ha hpc hs rfl fun hnew hg hw hnode => ⟨hnew, hg, ?_, hw⟩
    rw [hnode]
    exact hlt
  | @stored n level hpc hle =>
    refine h.store ha hpc hs rfl fun hnew hg hw hnode => ⟨hnew, hg, fun k hk => hw k ?_⟩
    rw [hnode] at hk
    omega
  | linkBottom hpc hcas => exact h.linkBottom ha hpc hcas hs
  | @refind n hpc hcas =>
    refine h.quiet ha hs rfl ?_ (by simp [marks, hpc]) (.inr (by rw [hpc]; rfl)) ?_
    · simp only [links, hpc]
      rw [if_neg hcas]
    · intro hshape hm hok
      rw [hpc] at hok
      exact retry_ok hshape (h.legal t) hok.1
  | @link n level hpc hw =>
    have hok := h.ok t
    rw [hpc] at hok
    obtain ⟨⟨hn, hone, htop⟩, harrays⟩ := hok
    have hl : links (r.state i) (.next t spurious) = none := by simp [links, hpc]
    have hk : marks (r.state i) (.next t spurious) = none := by simp [marks, hpc]
    have hpred := (harrays.pred level (Nat.zero_le _) (lt_of_le_of_lt htop hn.top)).1
    refine h.write ha hs hl hpred (by rw [hw]) (by simp)
      (h.shape.link hpred hone (hn.target level htop) hw) (.inl ?_) ?_
    · rw [above]
      split_ifs <;> rfl
    · intro hc hown
      exact above_ok (hn.frame (h.frame ha hc hl hk)) (harrays.frame hc) (by omega)
        (hc.same (hn.target 0 (Nat.zero_le _)).linked).symm
  | @relink n level hpc =>
    refine h.quiet ha hs rfl (by simp [links, hpc]) (by simp [marks, hpc]) (.inl rfl) ?_
    intro hshape hm hok
    rw [hpc] at hok
    exact retry_ok hshape (h.legal t) hok.1
  | @readMarked n level hpc hw =>
    refine h.quiet ha hs rfl (by simp [links, hpc]) (by simp [marks, hpc]) (.inl ?_) ?_
    · cases level with
      | zero => rfl
      | succ level => cases level <;> rfl
    · intro hshape hm hok
      rw [hpc] at hok
      obtain ⟨hv, hone, hmarked⟩ := hok
      refine below_ok hv fun k hk hle => ?_
      rcases Nat.lt_or_ge level k with hlt | hge
      · exact hmarked k hlt hle
      · obtain rfl : k = level := by omega
        rw [hm]
        exact hw
  | @read n level succ hpc hw =>
    refine h.quiet ha hs rfl (by simp [links, hpc]) (by simp [marks, hpc]) (.inl rfl) ?_
    intro hshape hm hok
    rw [hpc] at hok
    exact hok
  | @mark n level succ hpc hw =>
    have hok := h.ok t
    rw [hpc] at hok
    obtain ⟨hv, hone, hmarked⟩ := hok
    have hl : links (r.state i) (.next t spurious) = none := by simp [links, hpc]
    have hk : marks (r.state i) (.next t spurious) = none := by simp [marks, hpc]
    refine h.write ha hs hl hv.linked (by rw [hw]) (by omega)
      (h.shape.mark hv.linked hv.not_head hv.not_tail hw (by omega)) (.inl rfl) ?_
    intro hc hown
    exact ⟨hv.frame (h.frame ha hc hl hk), hone, hmarked.frame hc hv.linked⟩
  | @remark n level succ hpc =>
    refine h.quiet ha hs rfl (by simp [links, hpc]) (by simp [marks, hpc]) (.inl rfl) ?_
    intro hshape hm hok
    rw [hpc] at hok
    exact hok
  | @readBottom n hpc =>
    refine h.quiet ha hs rfl (by simp [links, hpc]) (by simp [marks, hpc]) (.inl rfl) ?_
    intro hshape hm hok
    rw [hpc] at hok
    exact hok
  | @markBottom n succ hpc hcas =>
    have hok := h.ok t
    rw [hpc] at hok
    obtain ⟨hv, hmarked⟩ := hok
    have hword := next_of_cas hcas
    have hl : links (r.state i) (.next t spurious) = none := by simp [links, hpc]
    have hk : marks (r.state i) (.next t spurious) = some n := by simp [marks, hpc, hcas]
    refine h.write ha hs hl hv.linked (by rw [hword]) (fun _ _ => ⟨by rw [hword], hk⟩)
      (h.shape.mark hv.linked hv.not_head hv.not_tail hword (fun _ k hk' => hmarked k (by omega)))
      (.inl rfl) ?_
    intro hc hown
    have hnot : ¬ opens t (r.act i) := by rw [ha]; exact id
    refine ⟨hv.op, linked_mono hv.linked, ?_⟩
    rw [hc.same hv.linked]
    exact ⟨Machine.Run.Once.first hv.no_mark hnot,
      Machine.Run.Did.step ⟨by rw [ha]; rfl, n, by rw [ha]; exact hk, hv.equal, rfl⟩ hnot⟩
  | @unmarked n succ hpc hcas =>
    refine h.quiet ha hs rfl (by simp [links, hpc]) ?_ (.inl rfl) ?_
    · simp only [marks, hpc]
      rw [if_neg hcas]
    · intro hshape hm hok
      rw [hpc] at hok
      exact hok
  | @mine n hpc =>
    refine h.quiet ha hs rfl (by simp [links, hpc]) (by simp [marks, hpc]) (.inl rfl) ?_
    intro hshape hm hok
    rw [hpc] at hok
    exact retry_ok hshape (h.legal t) hok
  | @other n hpc hw =>
    refine h.quiet ha hs rfl (by simp [links, hpc]) (by simp [marks, hpc]) (.inl rfl) ?_
    intro hshape hm hok
    rw [hpc] at hok
    obtain ⟨hv, -⟩ := hok
    rw [hv.succ, ← hm] at hw
    exact answer_remove hv.op (.inr ⟨rfl, hv.no_mark, .inr (hv.lost hw)⟩)
  | @again n succ hpc hw =>
    refine h.quiet ha hs rfl (by simp [links, hpc]) (by simp [marks, hpc]) (.inl rfl) ?_
    intro hshape hm hok
    rw [hpc] at hok
    exact hok

end Advance

lemma Inv.call {op : Op V} (h : Inv r i) (ha : r.act i = .call t op) (hop : op.Legal)
    (hs : r.state (i + 1) = (r.state i).put (r.memory i) t
      ⟨{ ((r.state i).thread t).toVars with op := op }, op.start c⟩) : Kept r i := by
  have hm := memory_succ hs
  have hl : links (r.state i) (r.act i) = none := by rw [ha]; rfl
  have hc := Carries.quiet h.shape hm hl
  have hopens : opens t (r.act i) := by rw [ha]; rfl
  have hkeep : ∀ u n, ((r.state i).thread u).pc.owns = some n →
      (r.memory (i + 1)).next n = (r.memory i).next n ∧ n ∉ r.linked (i + 1) := by
    intro u n ho
    rw [hm, linked_succ_none hl]
    exact ⟨rfl, (h.private ho).not_linked⟩
  have hnolink : NoLink r t (i + 1) := Machine.Run.not_did_opens hopens
  have hnomark : NoMark r t (i + 1) := Machine.Run.not_did_opens hopens
  refine h.put hs (by rw [ha]; rfl) hc hop ?_ (fun n hn => ?_) fun u _ => hkeep u
  · cases op with
    | find lb ub => exact retry_ok hc.after hop ⟨lb, ub, rfl⟩
    | insert lb ub x => exact ⟨⟨lb, ub, x, rfl⟩, hnolink⟩
    | remove lb ub => exact retry_ok hc.after hop ⟨⟨lb, ub, rfl⟩, hnomark⟩
  · cases op <;> cases hn

lemma Inv.allocate {lb ub : ℤ} {x : Option V} {topLevel : ℕ} (h : Inv r i)
    (ha : r.act i = .allocate t n topLevel) (hpc : ((r.state i).thread t).pc = .allocate)
    (hop : ((r.state i).thread t).op = .insert lb ub x) (hn : n ∉ (r.memory i).allocated)
    (htop : topLevel < MAX_LEVEL)
    (hs : r.state (i + 1) = (r.state i).put
      ⟨Function.update (r.memory i).node n ⟨topLevel, lb, ub, x⟩,
        Function.update (r.memory i).next n fun _ => ⟨none, false⟩, n :: (r.memory i).allocated⟩ t
      (((r.state i).thread t).goto (retry c (.insert n)))) : Kept r i := by
  have hm := memory_succ hs
  have hl : links (r.state i) (r.act i) = none := by rw [ha]; rfl
  have hk : marks (r.state i) (r.act i) = none := by rw [ha]; rfl
  have hlinked := linked_succ_none hl
  have hne : ∀ y ∈ (r.memory i).allocated, y ≠ n := by
    rintro y hy rfl
    exact hn hy
  have hnode : ∀ y ∈ (r.memory i).allocated, (r.memory (i + 1)).node y = (r.memory i).node y := by
    intro y hy
    rw [hm]
    exact Function.update_of_ne (hne y hy) ..
  have hnext : ∀ y ∈ (r.memory i).allocated, (r.memory (i + 1)).next y = (r.memory i).next y := by
    intro y hy
    rw [hm]
    exact Function.update_of_ne (hne y hy) ..
  have halloc : (r.memory i).allocated ⊆ (r.memory (i + 1)).allocated := by
    rw [hm]
    exact List.subset_cons_self _ _
  have hafter : Shape c (r.linked (i + 1)) (r.memory (i + 1)) := by
    rw [hlinked]
    exact h.shape.congr (fun y hy => hnode y (h.shape.allocated hy))
      (fun y hy => hnext y (h.shape.allocated hy)) halloc
  have hc : Carries r i :=
    { before := h.shape
      after := hafter
      node := hnode
      allocated := halloc
      frozen y hy level _ := by rw [hnext y (h.shape.allocated hy)]
      kept y hy q hq := by rw [← hnext y (h.shape.allocated hy), hq]
      marked y hy hmarked := .inl (by rwa [hnext y (h.shape.allocated hy)] at hmarked) }
  have hframe : Frame r t i := ⟨hc, by rw [ha]; exact id, fun _ => hl, fun _ => hk⟩
  have hself : (r.memory (i + 1)).node n = ⟨topLevel, lb, ub, x⟩ := by
    rw [hm]
    exact Function.update_self ..
  have hnull : (r.memory (i + 1)).next n = fun _ => ⟨none, false⟩ := by
    rw [hm]
    exact Function.update_self ..
  have hfresh : n ∉ r.linked (i + 1) := by
    rw [hlinked]
    exact fun hmem => hn (h.shape.allocated hmem)
  have hold := h.ok t
  rw [hpc] at hold
  have hnew : New r t (i + 1) ((r.state i).thread t).toVars n := by
    refine ⟨⟨by rw [hself]; exact hop, by rw [hself]; exact htop⟩, ⟨hfresh, ?_, ?_, ?_⟩,
      hold.2.frame hframe⟩
    · rw [hm]
      exact List.mem_cons_self
    · intro level
      rw [hnull]
    · intro level q hq
      rw [hnull] at hq
      cases hq
  refine h.put hs (by rw [ha]; rfl) hc (h.legal t) (retry_ok hafter (h.legal t) hnew) ?_ ?_
  · intro y hy
    cases hy
    exact .inr hn
  · intro u _ y hy
    have hy' := h.private hy
    exact ⟨hnext y hy'.allocated, by rw [hlinked]; exact hy'.not_linked⟩

lemma Inv.step (h : Inv r i) {a : Act A V T} {s : State A V T} (ha : r.act i = a)
    (hs : r.state (i + 1) = s) (hstep : Step c (r.state i) a s) : Kept r i := by
  cases hstep with
  | call hpc hop => exact h.call ha hop hs
  | allocate hpc hop hn htop => exact h.allocate ha hpc hop hn htop hs
  | next hadv => exact h.advance ha hs hadv
  | @ret t ret hpc =>
    have hm := memory_succ hs
    have hl : links (r.state i) (r.act i) = none := by rw [ha]; rfl
    refine h.put hs (by rw [ha]; rfl) (Carries.quiet h.shape hm hl) (h.legal t) trivial ?_ ?_
    · intro n hn
      cases hn
    · intro u _ n hn
      rw [hm, linked_succ_none hl]
      exact ⟨rfl, (h.private hn).not_linked⟩

lemma inv_initial (hs : r.state 0 = initial c) : Inv r 0 := by
  have hshape : Shape c (r.linked 0) (r.memory 0) := by
    rw [Trace.memory, hs]
    exact .initial
  refine ⟨hshape, fun t => ?_, fun t => ?_, fun {t u n} ht => ?_⟩
  · rw [hs]
    exact ⟨show INT_MIN ≤ 0 by decide, show 0 ≤ INT_MAX by decide, fun _ _ _ h => by cases h⟩
  · rw [hs]
    trivial
  · rw [hs] at ht
    cases ht

theorem inv_of_run (r : Trace c V T) : ∀ i ≤ r.len, Inv r i
  | 0, _ => inv_initial r.start
  | i + 1, hi => ((inv_of_run r i (by omega)).step rfl rfl (step_cases (r.next i (by omega)))).inv

lemma carries_of_run (r : Trace c V T) (hi : i < r.len) : Carries r i :=
  ((inv_of_run r i hi.le).step rfl rfl (step_cases (r.next i hi))).carries

end ObjectCache.LockFree
