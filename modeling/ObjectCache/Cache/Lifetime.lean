import ObjectCache.Cache.Custody

/-! The lifetime of cached buffers, in every reachable state of one node's cache. -/

namespace ObjectCache.Cache.Buffers

open Lib

set_option linter.unusedSectionVars false

variable {T : Type} [DecidableEq T] {g : Geometry} {s : State T}

/-- In `handle_free`, past the decrement, or after it and before the install. -/
def Pc.hasDropped : Pc → Bool
  | .testZero _ _ _ _ | .freeOld _ _ _ _ | .install _ _ _ => true
  | _ => false

/-- The task that `try_free_some` or `handle_free` has in hand. -/
def Pc.task : Pc → Option DeallocTask
  | .freeTask _ task | .testZero _ _ _ task | .freeOld _ _ _ task => some task
  | _ => none

/-- What a miss has read and not yet installed. -/
def Pc.data : Pc → Option ℕ
  | .decrement _ _ data | .testZero _ _ data _ | .freeOld _ _ data _ | .install _ _ data => some data
  | _ => none

def Pc.returns (b : ℕ) : Pc → Bool
  | .unlock _ result _ _ => result = some b
  | _ => false

def CachedObject.refersTo (b : ℕ) : CachedObject → Bool
  | .empty => false
  | .counted obj _ => obj = some b
  | .temp obj _ => obj = .fetched b

namespace State

/-- The line has not given its buffer to `handle_free`. -/
def InLine (s : State T) (i b : ℕ) : Prop :=
  (s.lines i).local_ptr = some b ∧
    ∀ t, (s.lines i).mu.writer = some t → (s.pc t).hasDropped = false

def Limbo (s : State T) (t : T) (task : DeallocTask) : Prop :=
  task ∈ s.store.dealloc_pool t ∨ (s.pc t).task = some task

variable [Fintype T]

/-- The `CachedObject`s on a buffer, with those that a read has counted and is about to return. -/
def live (s : State T) (b : ℕ) : ℕ :=
  s.store.objects.countP (·.refersTo b) + (Finset.univ.filter fun t => (s.pc t).returns b).card

end State

variable [Fintype T]

structure Lifetime (s : State T) : Prop where
  line : ∀ i b, s.InLine i b → s.store.counter (s.lines i).ref_counter = 1 + s.live b
  replaced : ∀ t task b, s.Limbo t task → task.local_ptr = some b →
    s.store.counter task.ref_counter = s.live b
  deallocated : ∀ b ∈ s.store.deallocations, (∀ i, ¬ s.InLine i b) ∧ s.live b = 0
  once : s.store.deallocations.Nodup
  owned : ∀ b < s.store.next_buffer, b ∉ s.store.deallocations →
    (∃ i, s.InLine i b) ∨ (∃ t task, s.Limbo t task ∧ task.local_ptr = some b) ∨ 0 < s.live b ∨
      ∃ t, (s.pc t).data = some b

/-! ### The first state -/

lemma control_initial (h : Initial s) : Control g s := by
  obtain ⟨hl, hpc, -⟩ := h
  refine ⟨fun t q hq => ?_, fun t i hw => ?_, fun i hi => ?_, fun t => ?_⟩
  · rw [hpc] at hq
    cases hq
  · rw [(hl i).2.1] at hw
    cases hw
  · rw [(hl i).1] at hi
    exact absurd rfl hi
  · rw [hpc]
    trivial

/-- Where a counter is before any step. -/
def Ref.birthplace {T : Type} : Ref → Place T
  | .line i => .line i none
  | .generated _ => .unmade

lemma books_initial (h : Initial s) : Ledger.Books s.ledger := by
  obtain ⟨hl, hpc, hstore⟩ := h
  have hrole : ∀ t, s.ledger.role t = .free := fun t => by rw [ledger_role, hpc]; rfl
  have hphase : ∀ i, s.phase i = .kept := fun i => by simp [State.phase, (hl i).2.1, SharedMutex.free]
  have hline : ∀ i, s.ledger.line i = ⟨none, .line i, .kept⟩ := fun i => by
    simp [State.ledger, hphase, hl]
  have hempty : s.ledger.store = .empty := hstore
  have hat : ∀ ref d, s.ledger.At ref d ↔ d = ref.birthplace := by
    intro ref d
    cases d <;> cases ref <;>
      simp [Ledger.At, hline, hrole, hempty, Store.empty, Phase.isGone, Ref.birthplace, eq_comm]
  have hheld : ∀ b c, s.ledger.Held b c ↔ c = .unfetched := by
    intro b c
    cases c with
    | counted ref =>
      refine iff_of_false ?_ (by rintro ⟨⟩)
      rintro ⟨d, hd, hb⟩
      rw [hat] at hd
      subst hd
      cases ref <;> cases hb
    | unfetched | reading | temp | deallocated =>
      simp [Ledger.Held, hline, hempty, Store.empty, Phase.data]
  have huses : ∀ obj ref, ¬ s.ledger.Uses obj ref := by
    rintro obj ref (hu | ⟨t, ht⟩)
    · simp [hempty, Store.empty] at hu
    · rw [hrole] at ht
      cases ht
  have hrefs : ∀ ref, s.ledger.references ref = 0 := by
    intro ref
    by_contra hne
    obtain ⟨obj, hu⟩ := Ledger.uses_of_references hne
    exact huses obj ref hu
  refine ⟨⟨fun ref => ⟨_, (hat ref _).mpr rfl, fun d hd => (hat ref d).mp hd⟩,
    fun b => ⟨_, (hheld b _).mpr rfl, fun c hc => (hheld b c).mp hc⟩,
    fun obj ref hu => absurd hu (huses obj ref)⟩, fun i b hi => ?_, fun t task hm => ?_,
    fun t task ht => ?_, fun i b hi => ?_, fun t => ?_, fun t => ?_, ?_⟩
  · obtain ⟨-, -, rfl⟩ := hi
    simp [hrefs, hline, Ledger.share, hempty, Store.empty, Phase.isDropped]
  · simp [hempty, Store.empty] at hm
  · rw [hrole] at ht
    cases ht
  · exact hrefs _
  · simp [hempty, Store.empty]
  · simp [hempty, Store.empty]
  · simp [hempty, Store.empty]

/-! ### Every state -/

lemma books_run {l l' : Ledger T} (h : Ledger.Books l)
    (hs : Relation.ReflTransGen Ledger.Step l l') : Ledger.Books l' := by
  induction hs with
  | refl => exact h
  | tail _ hs ih => exact Ledger.books_step ih hs

theorem reachable_books (h : (machine g T).Reachable s) :
    Control g s ∧ Ledger.Books s.ledger := by
  refine h.invariant (I := fun s => Control g s ∧ Ledger.Books s.ledger)
    (fun s hi => ⟨control_initial hi, books_initial hi⟩) fun s a s' ⟨hc, hb⟩ hs => ?_
  obtain ⟨hc', hl⟩ := sim_step hc hs
  exact ⟨hc', books_run hb hl⟩

/-! ### Reading the books -/

lemma kept_of_inLine {i b : ℕ} (h : s.InLine i b) :
    (s.phase i).isGone = false ∧ (s.phase i).isDropped = false := by
  unfold State.phase
  cases hw : (s.lines i).mu.writer with
  | none => exact ⟨rfl, rfl⟩
  | some t =>
    have ht := h.2 t hw
    cases hpc : s.pc t with
    | testZero | freeOld | install =>
      rw [hpc] at ht
      cases ht
    | _ =>
      simp only [hpc]
      exact ⟨rfl, rfl⟩

lemma at_of_inLine {i b : ℕ} (h : s.InLine i b) :
    s.ledger.At (s.lines i).ref_counter (.line i (some b)) :=
  ⟨(kept_of_inLine h).1, rfl, h.1⟩

/-- Whoever refers to a buffer is its owner, or counted by its counter. -/
lemma held_of_refersTo (h : Ledger.Books s.ledger) {o : CachedObject} {b : ℕ}
    (ho : o ∈ s.store.objects) (hb : o.refersTo b = true) :
    (∃ ref, s.ledger.Held b (.counted ref) ∧ o.counts ref = true) ∨
      ∃ k, s.ledger.Held b (.temp k) := by
  cases o with
  | empty => cases hb
  | counted obj ref =>
    obtain rfl : obj = some b := by simpa [CachedObject.refersTo] using hb
    obtain ⟨d, x, hx, hd, hdx⟩ := h.named _ _ (.inl ho)
    cases hx
    exact .inl ⟨ref, ⟨d, hd, hdx⟩, by simp [CachedObject.counts]⟩
  | temp obj pre =>
    obtain rfl : obj = .fetched b := by simpa [CachedObject.refersTo] using hb
    obtain ⟨k, hk⟩ := List.getElem?_of_mem ho
    exact .inr ⟨k, pre, hk⟩

lemma held_of_returns (h : Ledger.Books s.ledger) {t : T} {b : ℕ}
    (hb : (s.pc t).returns b = true) :
    ∃ ref, s.ledger.Held b (.counted ref) ∧ (s.pc t).role.returns ref = true := by
  cases hpc : s.pc t with
  | unlock q result ref w =>
    rw [hpc] at hb
    obtain rfl : result = some b := by simpa [Pc.returns] using hb
    have hrole : s.ledger.role t = .pending (some b) ref := by rw [ledger_role, hpc]; rfl
    obtain ⟨d, x, hx, hd, hdx⟩ := h.named _ _ (.inr ⟨t, hrole⟩)
    cases hx
    exact ⟨ref, ⟨d, hd, hdx⟩, by simp [Pc.role, Role.returns]⟩
  | _ =>
    rw [hpc] at hb
    cases hb

/-- The objects on a counted buffer are those that use its counter. -/
lemma live_eq_references (h : Ledger.Books s.ledger) {ref : Ref} {d : Place T} {b : ℕ}
    (hd : s.ledger.At ref d) (hb : d.buffer = some b) : s.live b = s.ledger.references ref := by
  have hheld : s.ledger.Held b (.counted ref) := ⟨d, hd, hb⟩
  have huses : ∀ obj, s.ledger.Uses obj ref → obj = some b := by
    intro obj hu
    obtain ⟨e, x, rfl, he, hx⟩ := h.named obj ref hu
    rw [h.at_unique he hd, hb] at hx
    exact hx.symm
  unfold State.live Ledger.references
  congr 1
  · refine List.countP_congr fun o ho => ⟨fun hr => ?_, fun hc => ?_⟩
    · rcases held_of_refersTo h ho hr with ⟨r, hr, hc⟩ | ⟨k, hk⟩
      · cases h.held_unique hr hheld
        exact hc
      · cases h.held_unique hk hheld
    · cases o with
      | counted obj r =>
        obtain rfl : r = ref := by simpa [CachedObject.counts] using hc
        simp [CachedObject.refersTo, huses obj (.inl ho)]
      | empty | temp => cases hc
  · congr 1
    refine Finset.filter_congr fun t _ => ⟨fun hr => ?_, fun hc => ?_⟩
    · obtain ⟨r, hr, hc⟩ := held_of_returns h hr
      cases h.held_unique hr hheld
      exact hc
    · cases hpc : s.pc t with
      | unlock q result r w =>
        have hrole : s.ledger.role t = .pending result r := by rw [ledger_role, hpc]; rfl
        rw [hrole] at hc
        obtain rfl : r = ref := by simpa [Role.returns] using hc
        simp [Pc.returns, huses result (.inr ⟨t, hrole⟩)]
      | _ =>
        rw [ledger_role, hpc] at hc
        cases hc

/-- No object is on a buffer that someone else answers for. -/
lemma live_eq_zero (h : Ledger.Books s.ledger) {b : ℕ} {c : Custody T} (hheld : s.ledger.Held b c)
    (hcounted : ∀ ref, c ≠ .counted ref) (htemp : ∀ k, c ≠ .temp k) : s.live b = 0 := by
  have ho : s.store.objects.countP (·.refersTo b) = 0 := by
    refine List.countP_eq_zero.mpr fun o ho hr => ?_
    rcases held_of_refersTo h ho hr with ⟨ref, hr, -⟩ | ⟨k, hk⟩
    · exact hcounted ref (h.held_unique hheld hr)
    · exact htemp k (h.held_unique hheld hk)
  have ht : (Finset.univ.filter fun t => (s.pc t).returns b).card = 0 := by
    refine Finset.card_eq_zero.mpr (Finset.filter_eq_empty_iff.mpr fun t _ hr => ?_)
    obtain ⟨ref, hr, -⟩ := held_of_returns h hr
    exact hcounted ref (h.held_unique hheld hr)
  rw [State.live, ho, ht]

lemma at_of_limbo (hc : Control g s) (h : Ledger.Books s.ledger) {t : T} {task : DeallocTask} {b : ℕ}
    (hl : s.Limbo t task) (hb : task.local_ptr = some b) :
    ∃ d : Place T, s.ledger.At task.ref_counter d ∧ d.buffer = some b ∧
      s.store.counter task.ref_counter = s.ledger.references task.ref_counter := by
  rcases hl with hm | ht
  · exact ⟨.limbo t b, ⟨task, hm, rfl, hb⟩, rfl, (h.limbo t task hm).2⟩
  · have hok := hc.ok t
    cases hpc : s.pc t with
    | freeTask q x =>
      rw [hpc] at ht
      cases ht
      have hrole : s.ledger.role t = .hand task := by rw [ledger_role, hpc]; rfl
      obtain ⟨-, h0, hr⟩ := h.hand t task hrole
      exact ⟨.hand t b, ⟨task, hrole, rfl, hb⟩, rfl, by rw [hr]; exact h0⟩
    | testZero q miss data x | freeOld q miss data x =>
      rw [hpc] at ht hok
      cases ht
      obtain ⟨hptr, href⟩ := hok
      have hphase := hc.phase_eq (t := t) (q := q) (by rw [hpc]; rfl) (by rw [hpc]; rfl)
      rw [hpc] at hphase
      have hbuf : (s.ledger.line (q.index g)).buf = some b := hptr.symm.trans hb
      have href' : (s.ledger.line (q.index g)).ref = task.ref_counter := href.symm
      have hat : s.ledger.At task.ref_counter (.line (q.index g) (some b)) :=
        ⟨by simp [State.ledger, hphase, Pc.phase, Phase.isGone], href', hbuf⟩
      have hl := h.line (q.index g) (some b) (by rw [href']; exact hat)
      rw [href'] at hl
      refine ⟨_, hat, rfl, hl.trans ?_⟩
      have hdrop : (s.ledger.line (q.index g)).phase.isDropped = true := by
        simp [State.ledger, hphase, Pc.phase, Phase.isDropped]
      simp [Ledger.share, hdrop]
    | _ =>
      rw [hpc] at ht
      cases ht

/-- The buffer of a counter in a line is the line's, or in the hands of `handle_free`. -/
lemma owned_of_line (hc : Control g s) {ref : Ref} {i b : ℕ}
    (hd : s.ledger.At ref (.line i (some b))) :
    s.InLine i b ∨ ∃ t task, s.Limbo t task ∧ task.local_ptr = some b := by
  obtain ⟨hgone, -, hptr⟩ := hd
  by_cases hdrop : ∀ t, (s.lines i).mu.writer = some t → (s.pc t).hasDropped = false
  · exact .inl ⟨hptr, hdrop⟩
  · push Not at hdrop
    obtain ⟨t, hw, ht⟩ := hdrop
    obtain ⟨q, hq, rfl, -⟩ := hc.writer t i hw
    have hok := hc.ok t
    cases hpc : s.pc t with
    | testZero p miss data x | freeOld p miss data x =>
      rw [hpc] at hq hok
      cases hq
      exact .inr ⟨t, x, .inr (by rw [hpc]; rfl), hok.1.trans hptr⟩
    | install p miss data =>
      simp only [State.ledger, State.phase, hw, hpc] at hgone
      cases hgone
    | _ =>
      rw [hpc] at ht
      exact absurd rfl ht

/-- What a line's holder has fetched. -/
lemma data_of_phase {i b : ℕ} (h : (s.phase i).data = some b) : ∃ t, (s.pc t).data = some b := by
  unfold State.phase at h
  cases hw : (s.lines i).mu.writer with
  | none =>
    rw [hw] at h
    cases h
  | some t =>
    rw [hw] at h
    refine ⟨t, ?_⟩
    cases hpc : s.pc t with
    | decrement | testZero | freeOld | install =>
      simp only [hpc] at h
      exact h
    | _ =>
      simp only [hpc] at h
      cases h

theorem lifetime (h : (machine g T).Reachable s) : Lifetime s := by
  obtain ⟨hc, hb⟩ := reachable_books h
  refine ⟨fun i b hi => ?_, fun t task b hl htask => ?_, fun b hm => ⟨fun i hi => ?_, ?_⟩, hb.log,
    fun b hlt hm => ?_⟩
  · have hat := at_of_inLine hi
    have hl := hb.line i (some b) hat
    rw [live_eq_references hb hat rfl]
    refine hl.trans ?_
    simp [Ledger.share, State.ledger, (kept_of_inLine hi).2]
  · obtain ⟨d, hd, hdb, hcount⟩ := at_of_limbo hc hb hl htask
    rw [live_eq_references hb hd hdb]
    exact hcount
  · have hheld : s.ledger.Held b .deallocated := hm
    have hcounted : s.ledger.Held b (.counted _) := ⟨_, at_of_inLine hi, rfl⟩
    cases hb.held_unique hcounted hheld
  · exact live_eq_zero hb (c := .deallocated) hm (by rintro _ ⟨⟩) (by rintro _ ⟨⟩)
  · obtain ⟨c, hheld, -⟩ := hb.buffers b
    cases c with
    | unfetched => exact absurd hheld (Nat.not_le.mpr hlt)
    | reading i => exact .inr (.inr (.inr (data_of_phase hheld)))
    | counted ref =>
      obtain ⟨d, hd, hdb⟩ := hheld
      cases d with
      | line i x =>
        obtain rfl : x = some b := hdb
        exact (owned_of_line hc hd).imp (fun hi => ⟨i, hi⟩) .inl
      | limbo t x =>
        obtain ⟨task, hm, -, hx⟩ := hd
        exact .inr (.inl ⟨t, task, .inl hm, hx.trans hdb⟩)
      | hand t x =>
        obtain ⟨task, hr, -, hx⟩ := hd
        refine .inr (.inl ⟨t, task, .inr ?_, hx.trans hdb⟩)
        rw [ledger_role] at hr
        cases hpc : s.pc t with
        | freeTask q y =>
          rw [hpc] at hr
          cases hr
          rfl
        | _ =>
          rw [hpc] at hr
          cases hr
      | unmade | pooled => cases hdb
    | temp k =>
      obtain ⟨pre, hk⟩ := hheld
      have : 0 < s.store.objects.countP (·.refersTo b) :=
        List.countP_pos_iff.mpr ⟨_, List.mem_of_getElem? hk, by simp [CachedObject.refersTo]⟩
      exact .inr (.inr (.inl (Nat.add_pos_left this _)))
    | deallocated => exact absurd hheld hm

/-- A buffer that a miss has in hand has no other owner. -/
lemma fetched_alone (h : (machine g T).Reachable s) {t : T} {b : ℕ}
    (hd : (s.pc t).data = some b) :
    (∀ i, ¬ s.InLine i b) ∧ (∀ u task, s.Limbo u task → task.local_ptr ≠ some b) ∧
      s.live b = 0 := by
  obtain ⟨hc, hb⟩ := reachable_books h
  obtain ⟨q, hq, hx, hdata⟩ : ∃ q, (s.pc t).request = some q ∧ (s.pc t).hold = .exclusive ∧
      (s.pc t).phase.data = some b := by
    cases hpc : s.pc t with
    | decrement q miss data | testZero q miss data old | freeOld q miss data old
    | install q miss data =>
      rw [hpc] at hd
      exact ⟨q, rfl, rfl, hd⟩
    | _ =>
      rw [hpc] at hd
      cases hd
  have hheld : s.ledger.Held b (.reading (q.index g)) :=
    (congrArg Phase.data (hc.phase_eq hq hx)).trans hdata
  refine ⟨fun i hi => ?_, fun u task hl htask => ?_, ?_⟩
  · have hcounted : s.ledger.Held b (.counted _) := ⟨_, at_of_inLine hi, rfl⟩
    cases hb.held_unique hcounted hheld
  · obtain ⟨d, hd, hdb, -⟩ := at_of_limbo hc hb hl htask
    have hcounted : s.ledger.Held b (.counted _) := ⟨d, hd, hdb⟩
    cases hb.held_unique hcounted hheld
  · exact live_eq_zero hb hheld (by rintro _ ⟨⟩) (by rintro _ ⟨⟩)

/-! ### Two threads and a line -/

def oneLine : Geometry := ⟨1, fun _ => 0, id, fun _ => 0⟩

def request : Request := ⟨.first, true, 64, none, 0⟩

def emptyCache : State Bool where
  lines i := ⟨0#64, .free, 2147483647, none, 0, .line i⟩
  pc _ := .idle
  store := .empty

/-- Thread `false` fills the line; `true` replaces the buffer while the object of `false` is on it
and frees it once that object is gone. -/
def replaceAndFree : List (Act Bool) :=
  .read false request :: List.replicate 15 (.next false) ++ [.invalidate 0] ++
  .read true request :: List.replicate 15 (.next true) ++ [.moveConstruct 0, .destroy 2] ++
  .read true request :: List.replicate 3 (.next true)

instance : Inhabited (Act Bool) := ⟨.next false⟩

def replaceAndFreeRun : (machine oneLine Bool).Run :=
  .ofActs (machine oneLine Bool) emptyCache replaceAndFree
    ⟨fun _ => ⟨rfl, rfl, rfl, rfl, rfl⟩, fun _ => rfl, rfl⟩ (by decide +kernel)

theorem lifetime_replaceAndFree :
    Lifetime (replaceAndFreeRun.state replaceAndFreeRun.len) ∧
      (replaceAndFreeRun.state replaceAndFreeRun.len).store.deallocations = [0] :=
  ⟨lifetime (replaceAndFreeRun.reachable _ le_rfl), by decide +kernel⟩

/-- Between its fetch and its install a buffer is in no line, no task and no object; from the
decrement to the install the counter of a line lacks the line's own reference. -/
theorem not_owned_and_not_counted :
    (∃ n ≤ replaceAndFreeRun.len, ∃ b < (replaceAndFreeRun.state n).store.next_buffer,
      b ∉ (replaceAndFreeRun.state n).store.deallocations ∧
      ¬ ((∃ i, (replaceAndFreeRun.state n).InLine i b) ∨
        (∃ t task, (replaceAndFreeRun.state n).Limbo t task ∧ task.local_ptr = some b) ∨
        0 < (replaceAndFreeRun.state n).live b)) ∧
    ∃ n ≤ replaceAndFreeRun.len, ∃ b,
      ((replaceAndFreeRun.state n).lines 0).local_ptr = some b ∧
      (replaceAndFreeRun.state n).store.counter
        ((replaceAndFreeRun.state n).lines 0).ref_counter ≠
          1 + (replaceAndFreeRun.state n).live b := by
  constructor
  · obtain ⟨h1, h2, h3⟩ := fetched_alone (replaceAndFreeRun.reachable 11 (by decide)) (t := false)
      (b := 0) (by decide +kernel)
    refine ⟨11, by decide, 0, by decide +kernel, by decide +kernel, ?_⟩
    rintro (⟨i, hi⟩ | ⟨t, task, hl, htask⟩ | hlive)
    · exact h1 i hi
    · exact h2 t task hl htask
    · omega
  · exact ⟨29, by decide, 0, by decide +kernel, by decide +kernel⟩

end ObjectCache.Cache.Buffers
