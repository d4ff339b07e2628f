import ObjectCache.Cache.Objects
import Mathlib.Logic.Relation

/-! The account of a state of the cache, and the locks that make every access one of its moves. -/

namespace ObjectCache.Cache.Buffers

open Lib SharedMutex

set_option linter.unusedSectionVars false

variable {T : Type} [DecidableEq T] {g : Geometry} {s s' : State T} {t : T}

/-! ### What a thread is doing -/

def Pc.request : Pc → Option Request
  | .idle => none
  | .tryFree q | .freeTask q _ | .lockShared q | .compare q | .testBit q | .hit q | .testPriority q
  | .unlockBypass q | .bypass q | .original q | .unlockMiss q _ _ | .lock q _ _ | .recheck q _ _
  | .unlockRetry q | .clearLoad q | .clearStore q _ | .swap q | .fetch q _ | .decrement q _ _
  | .testZero q _ _ _ | .freeOld q _ _ _ | .install q _ _ | .increment q _ _ _
  | .unlock q _ _ _ => some q

def Pc.hold : Pc → Hold
  | .idle | .tryFree _ | .freeTask _ _ | .lockShared _ | .bypass _ | .lock _ _ _ => .none
  | .compare _ | .testBit _ | .hit _ | .testPriority _ | .unlockBypass _ | .original _
  | .unlockMiss _ _ _ => .shared
  | .recheck _ _ _ | .unlockRetry _ | .clearLoad _ | .clearStore _ _ | .swap _ | .fetch _ _
  | .decrement _ _ _ | .testZero _ _ _ _ | .freeOld _ _ _ _ | .install _ _ _ => .exclusive
  | .increment _ _ _ acquired_wlock | .unlock _ _ _ acquired_wlock =>
    if acquired_wlock then .exclusive else .shared

def Pc.phase : Pc → Phase
  | .decrement _ _ data => .fetched data
  | .testZero _ _ data _ => .dropped data false
  | .freeOld _ _ data _ => .dropped data true
  | .install _ _ data => .gone data
  | _ => .kept

def Pc.role : Pc → Role
  | .freeTask _ task => .hand task
  | .unlock _ result ref _ => .pending result ref
  | _ => .free

/-- Between the swap of the address and the install. -/
def Pc.refills : Pc → Option Request
  | .fetch q _ | .decrement q _ _ | .testZero q _ _ _ | .freeOld q _ _ _ | .install q _ _ => some q
  | _ => none

namespace State

def phase (s : State T) (i : ℕ) : Phase :=
  match (s.lines i).mu.writer with
  | some t => (s.pc t).phase
  | none => .kept

def ledger (s : State T) : Ledger T where
  line i := ⟨(s.lines i).local_ptr, (s.lines i).ref_counter, s.phase i⟩
  role t := (s.pc t).role
  store := s.store

end State

/-- What a thread knows about the line it has locked. -/
def Pc.Ok (g : Geometry) (lines : ℕ → CacheLine T) : Pc → Prop
  | .testBit q | .hit q => (lines (q.index g)).local_ptr ≠ none
  | .testZero q _ _ old | .freeOld q _ _ old =>
    old.local_ptr = (lines (q.index g)).local_ptr ∧ old.ref_counter = (lines (q.index g)).ref_counter
  | .increment q result ref _ => result ≠ none ∧ (lines (q.index g)).local_ptr = result ∧
    (lines (q.index g)).ref_counter = ref
  | _ => True

structure Control (g : Geometry) (s : State T) : Prop where
  held : ∀ t q, (s.pc t).request = some q → (s.lines (q.index g)).mu.Holds t (s.pc t).hold
  writer : ∀ t i, (s.lines i).mu.writer = some t →
    ∃ q, (s.pc t).request = some q ∧ q.index g = i ∧ (s.pc t).hold = .exclusive
  filled : ∀ i, unmarkPtr (s.lines i).address ≠ 0#64 →
    (s.lines i).local_ptr ≠ none ∨ ∃ t q, (s.pc t).refills = some q ∧ q.index g = i
  ok : ∀ t, (s.pc t).Ok g s.lines

lemma Pc.hold_of_refills {pc : Pc} {q : Request} (h : pc.refills = some q) :
    pc.request = some q ∧ pc.hold = .exclusive := by
  cases pc <;> simp only [Pc.refills, reduceCtorEq] at h <;> exact ⟨h, rfl⟩

/-- What a thread knows is about a line it holds. -/
lemma Pc.Ok.frame {lines lines' : ℕ → CacheLine T} {pc : Pc} (h : pc.Ok g lines)
    (hl : ∀ q, pc.request = some q → pc.hold ≠ .none →
      (lines' (q.index g)).local_ptr = (lines (q.index g)).local_ptr ∧
      (lines' (q.index g)).ref_counter = (lines (q.index g)).ref_counter) : pc.Ok g lines' := by
  cases pc with
  | testBit q | hit q =>
    obtain ⟨hp, -⟩ := hl q rfl (by simp [Pc.hold])
    simpa only [Pc.Ok, hp] using h
  | testZero q _ _ old | freeOld q _ _ old =>
    obtain ⟨hp, hr⟩ := hl q rfl (by simp [Pc.hold])
    simpa only [Pc.Ok, hp, hr] using h
  | increment q result ref w =>
    obtain ⟨hp, hr⟩ := hl q rfl (by cases w <;> simp [Pc.hold])
    simpa only [Pc.Ok, hp, hr] using h
  | _ => trivial

/-- One access of a thread to the line it works on. -/
lemma Control.access (h : Control g s) {q : Request} {pc : Pc} {l : CacheLine T}
    (hq : (s.pc t).request = some q) (hpc : pc.request = some q ∨ pc = .idle)
    (hm : Moves t (s.lines (q.index g)).mu (s.pc t).hold l.mu pc.hold)
    (hl : l.local_ptr = (s.lines (q.index g)).local_ptr ∧
      l.ref_counter = (s.lines (q.index g)).ref_counter ∨ (s.pc t).hold = .exclusive)
    (hsome : (s.lines (q.index g)).local_ptr ≠ none → l.local_ptr ≠ none)
    (hfilled : unmarkPtr l.address ≠ 0#64 → l.local_ptr ≠ none ∨ pc.refills = some q ∨
      unmarkPtr (s.lines (q.index g)).address ≠ 0#64 ∧ (s.pc t).refills = none)
    (hok : pc.Ok g (Function.update s.lines (q.index g) l)) :
    Control g ((s.setLine (q.index g) l).setPc t pc) := by
  have hheld := h.held t q hq
  have hself : ((s.setLine (q.index g) l).setPc t pc).lines (q.index g) = l :=
    Function.update_self ..
  have hne : ∀ i, i ≠ q.index g →
      ((s.setLine (q.index g) l).setPc t pc).lines i = s.lines i :=
    fun i hi => Function.update_of_ne hi ..
  have hpct : ((s.setLine (q.index g) l).setPc t pc).pc t = pc :=
    Function.update_self ..
  have hpcu : ∀ u, u ≠ t →
      ((s.setLine (q.index g) l).setPc t pc).pc u = s.pc u :=
    fun u hu => Function.update_of_ne hu ..
  have hidle : pc.hold ≠ .none → pc.request = some q := by
    intro hh
    rcases hpc with hpc | rfl
    · exact hpc
    · exact absurd rfl hh
  refine ⟨fun u p hp => ?_, fun u i hw => ?_, fun i hi => ?_, fun u => ?_⟩
  · by_cases hu : u = t
    · subst hu
      rw [hpct] at hp ⊢
      by_cases hh : pc.hold = .none
      · rw [hh]
        trivial
      · obtain rfl : q = p := Option.some.inj ((hidle hh).symm.trans hp)
        rw [hself]
        exact hm.holds hheld
    · rw [hpcu u hu] at hp ⊢
      by_cases hi : p.index g = q.index g
      · rw [hi, hself]
        exact hm.frame hheld hu (hi ▸ h.held u p hp)
      · rw [hne _ hi]
        exact h.held u p hp
  · by_cases hi : i = q.index g
    · subst hi
      rw [hself] at hw
      obtain ⟨hwt, hwu⟩ := hm.writer hheld (fun hx => by
        obtain ⟨-, -, -, hx⟩ := h.writer t _ hx
        exact hx) hw
      by_cases hu : u = t
      · subst hu
        rw [hpct]
        have hx := hwt rfl
        exact ⟨q, hidle (by simp [hx]), rfl, hx⟩
      · rw [hpcu u hu]
        exact h.writer u _ (hwu hu)
    · rw [hne i hi] at hw
      obtain ⟨p, hp, hpi, hx⟩ := h.writer u i hw
      by_cases hu : u = t
      · subst hu
        obtain rfl : q = p := Option.some.inj (hq.symm.trans hp)
        exact absurd hpi.symm hi
      · rw [hpcu u hu]
        exact ⟨p, hp, hpi, hx⟩
  · have hothers : ∀ u p, u ≠ t → (s.pc u).refills = some p → p.index g = i →
        ∃ u p, (((s.setLine (q.index g) l).setPc t pc).pc u).refills = some p ∧
          p.index g = i := fun u p hu hp hpi => ⟨u, p, by rw [hpcu u hu]; exact hp, hpi⟩
    by_cases hqi : i = q.index g
    · subst hqi
      rw [hself] at hi ⊢
      rcases hfilled hi with hp | hp | ⟨ha, hr⟩
      · exact .inl hp
      · exact .inr ⟨t, q, by rw [hpct]; exact hp, rfl⟩
      · rcases h.filled _ ha with hp | ⟨u, p, hp, hpi⟩
        · exact .inl (hsome hp)
        · refine .inr (hothers u p ?_ hp hpi)
          rintro rfl
          rw [hr] at hp
          cases hp
    · rw [hne i hqi] at hi ⊢
      rcases h.filled i hi with hp | ⟨u, p, hp, hpi⟩
      · exact .inl hp
      · refine .inr (hothers u p ?_ hp hpi)
        rintro rfl
        obtain rfl : q = p := Option.some.inj (hq.symm.trans (Pc.hold_of_refills hp).1)
        exact hqi hpi.symm
  · by_cases hu : u = t
    · subst hu
      rw [hpct]
      exact hok
    · rw [hpcu u hu]
      refine (h.ok u).frame fun p hp hh => ?_
      by_cases hpi : p.index g = q.index g
      · rw [hpi, hself]
        refine hl.resolve_right fun hx => hu ?_
        rw [hx] at hheld
        exact hheld.eq_of_exclusive (hpi ▸ h.held u p hp) hh
      · rw [hne _ hpi]
        exact ⟨rfl, rfl⟩

/-- The pools and the objects do not matter to the locks. -/
lemma Control.setStore (h : Control g s) (store : Store T) : Control g (s.setStore store) :=
  ⟨h.held, h.writer, h.filled, h.ok⟩

/-- One access that leaves its line as it is. -/
lemma Control.stay (h : Control g s) {q : Request} {pc : Pc}
    (hq : (s.pc t).request = some q) (hpc : pc.request = some q ∨ pc = .idle)
    (hh : pc.hold = (s.pc t).hold)
    (hr : pc.refills = some q ∨ (s.pc t).refills = none) (hok : pc.Ok g s.lines) :
    Control g (s.setPc t pc) := by
  have hsame : Function.update s.lines (q.index g) (s.lines (q.index g)) = s.lines :=
    Function.update_eq_self ..
  have hc := h.access (l := s.lines (q.index g)) hq hpc
    (by rw [hh]; exact .stay) (.inl ⟨rfl, rfl⟩) id
    (fun ha => .inr (hr.imp id fun hr => ⟨ha, hr⟩)) (by rw [hsame]; exact hok)
  simpa only [State.setLine, hsame] using hc

/-- A step on the lock, the address or the sizes of a line. -/
structure Quiet (t : T) (q : Request) (l : CacheLine T) (pc : Pc) (m : CacheLine T) (pc' : Pc) :
    Prop where
  request : pc.request = some q ∧ pc'.request = some q
  moves : Moves t l.mu pc.hold m.mu pc'.hold
  same : m.local_ptr = l.local_ptr ∧ m.ref_counter = l.ref_counter
  kept : pc.phase = .kept ∧ pc'.phase = .kept
  free : pc.role = .free ∧ pc'.role = .free
  refills : pc.refills = none
  address : m.address = l.address ∨ pc'.refills = some q

lemma lineStep_quiet {l m : CacheLine T} {pc pc' : Pc} {q : Request} (hq : pc.lineRequest = some q)
    (h : lineStep t l pc = some (m, pc')) : Quiet t q l pc m pc' := by
  cases pc with
  | lockShared p =>
    cases hq
    obtain ⟨mu, hmu, he⟩ := Option.map_eq_some_iff.mp h
    cases he
    exact ⟨⟨rfl, rfl⟩, .lockShared hmu, ⟨rfl, rfl⟩, ⟨rfl, rfl⟩, ⟨rfl, rfl⟩, rfl, .inl rfl⟩
  | lock p miss original =>
    cases hq
    obtain ⟨mu, hmu, he⟩ := Option.map_eq_some_iff.mp h
    cases he
    exact ⟨⟨rfl, rfl⟩, .lock hmu, ⟨rfl, rfl⟩, ⟨rfl, rfl⟩, ⟨rfl, rfl⟩, rfl, .inl rfl⟩
  | compare p | testBit p | testPriority p =>
    cases hq
    simp only [lineStep, Option.some.injEq, Prod.mk.injEq] at h
    obtain ⟨rfl, rfl⟩ := h
    split_ifs <;>
      exact ⟨⟨rfl, rfl⟩, .stay, ⟨rfl, rfl⟩, ⟨rfl, rfl⟩, ⟨rfl, rfl⟩, rfl, .inl rfl⟩
  | hit p =>
    cases hq
    simp only [lineStep] at h
    split_ifs at h
    cases h
    exact ⟨⟨rfl, rfl⟩, .stay, ⟨rfl, rfl⟩, ⟨rfl, rfl⟩, ⟨rfl, rfl⟩, rfl, .inl rfl⟩
  | unlockBypass p | unlockMiss p miss original =>
    cases hq
    cases h
    exact ⟨⟨rfl, rfl⟩, .unlockShared, ⟨rfl, rfl⟩, ⟨rfl, rfl⟩, ⟨rfl, rfl⟩, rfl, .inl rfl⟩
  | unlockRetry p =>
    cases hq
    cases h
    exact ⟨⟨rfl, rfl⟩, .unlock, ⟨rfl, rfl⟩, ⟨rfl, rfl⟩, ⟨rfl, rfl⟩, rfl, .inl rfl⟩
  | recheck p miss original =>
    cases hq
    simp only [lineStep, Option.some.injEq, Prod.mk.injEq] at h
    obtain ⟨rfl, rfl⟩ := h
    split_ifs
    · exact ⟨⟨rfl, rfl⟩, .stay, ⟨rfl, rfl⟩, ⟨rfl, rfl⟩, ⟨rfl, rfl⟩, rfl, .inl rfl⟩
    · cases miss <;>
        exact ⟨⟨rfl, rfl⟩, .stay, ⟨rfl, rfl⟩, ⟨rfl, rfl⟩, ⟨rfl, rfl⟩, rfl, .inl rfl⟩
  | original p | clearLoad p =>
    cases hq
    cases h
    exact ⟨⟨rfl, rfl⟩, .stay, ⟨rfl, rfl⟩, ⟨rfl, rfl⟩, ⟨rfl, rfl⟩, rfl, .inl rfl⟩
  | clearStore p loaded | swap p =>
    cases hq
    cases h
    exact ⟨⟨rfl, rfl⟩, .stay, ⟨rfl, rfl⟩, ⟨rfl, rfl⟩, ⟨rfl, rfl⟩, rfl, .inr rfl⟩
  | _ => cases hq

/-- A line with the address of an object has a buffer, unless its holder is about to install one. -/
lemma Control.local_ptr_ne_none (h : Control g s) {q : Request} (hq : (s.pc t).request = some q)
    (hh : (s.pc t).hold ≠ .none) (hr : (s.pc t).refills = none)
    (ha : unmarkPtr (s.lines (q.index g)).address ≠ 0#64) :
    (s.lines (q.index g)).local_ptr ≠ none := by
  refine (h.filled _ ha).resolve_right ?_
  rintro ⟨u, p, hp, hpi⟩
  obtain ⟨hup, hux⟩ := Pc.hold_of_refills hp
  have hu := h.held u p hup
  rw [hux, hpi] at hu
  rw [hu.eq_of_exclusive (h.held t q hq) hh, hp] at hr
  cases hr

lemma lineStep_ok (h : Control g s) {m : CacheLine T} {pc' : Pc} {q : Request}
    (hq : (s.pc t).lineRequest = some q)
    (hs : lineStep t (s.lines (q.index g)) (s.pc t) = some (m, pc')) :
    pc'.Ok g (Function.update s.lines (q.index g) m) := by
  have hok := h.ok t
  have hptr := h.local_ptr_ne_none (t := t) (q := q)
  cases hpc : s.pc t with
  | compare p =>
    rw [hpc] at hq hs hptr
    cases hq
    simp only [lineStep, Option.some.injEq, Prod.mk.injEq] at hs
    obtain ⟨rfl, rfl⟩ := hs
    split_ifs with ha
    · simp only [Pc.Ok, Function.update_self]
      exact hptr rfl (by simp [Pc.hold]) rfl (ha ▸ q.ptr.nonnull)
    · trivial
  | testBit p =>
    rw [hpc] at hq hs hok
    cases hq
    simp only [lineStep, Option.some.injEq, Prod.mk.injEq] at hs
    obtain ⟨rfl, rfl⟩ := hs
    split_ifs
    · trivial
    · simpa [Pc.Ok] using hok
  | hit p =>
    rw [hpc] at hq hs hok
    cases hq
    simp only [lineStep] at hs
    split_ifs at hs
    cases hs
    simpa [Pc.Ok] using hok
  | lockShared p | lock p _ _ =>
    rw [hpc] at hs
    obtain ⟨mu, hmu, he⟩ := Option.map_eq_some_iff.mp hs
    cases he
    trivial
  | testPriority p =>
    rw [hpc] at hs
    simp only [lineStep, Option.some.injEq, Prod.mk.injEq] at hs
    obtain ⟨rfl, rfl⟩ := hs
    split_ifs <;> trivial
  | recheck p miss original =>
    rw [hpc] at hs
    simp only [lineStep, Option.some.injEq, Prod.mk.injEq] at hs
    obtain ⟨rfl, rfl⟩ := hs
    split_ifs
    · trivial
    · cases miss <;> trivial
  | unlockBypass p | unlockMiss p _ _ | unlockRetry p | original p | clearLoad p | clearStore p _
  | swap p =>
    rw [hpc] at hs
    cases hs
    trivial
  | _ =>
    rw [hpc] at hq
    cases hq

/-! ### The account of a step -/

lemma ledger_role (s : State T) (t : T) : s.ledger.role t = (s.pc t).role := rfl

@[simp] lemma ledger_setStore (s : State T) (store : Store T) :
    (s.setStore store).ledger = s.ledger.setStore store := rfl

lemma setRole_self (l : Ledger T) {t : T} {r : Role} (h : l.role t = r) : l.setRole t r = l := by
  subst h
  simp [Ledger.setRole]

/-- A thread that stays in its phase changes its own role only. -/
lemma ledger_setPc {pc : Pc} (hp : pc.phase = (s.pc t).phase) :
    (s.setPc t pc).ledger = s.ledger.setRole t pc.role := by
  have hphase : ∀ i, (s.setPc t pc).phase i = s.phase i := by
    intro i
    unfold State.phase
    cases hw : (s.lines i).mu.writer with
    | none => simp [State.setPc, hw]
    | some u =>
      by_cases hu : u = t
      · subst hu
        simp [State.setPc, hw, hp]
      · simp [State.setPc, hw, hu]
  have hrole : ∀ u, ((s.setPc t pc).pc u).role = Function.update s.ledger.role t pc.role u := by
    intro u
    by_cases hu : u = t
    · subst hu
      simp [State.setPc]
    · simp [State.setPc, State.ledger, hu]
  simp only [State.ledger, Ledger.setRole, hphase]
  congr 1
  funext u
  exact hrole u

lemma ledger_setPc_same {pc : Pc} (hp : pc.phase = (s.pc t).phase)
    (hr : pc.role = (s.pc t).role) : (s.setPc t pc).ledger = s.ledger := by
  rw [ledger_setPc hp]
  exact setRole_self _ hr.symm

/-- The holder of a line's lock moves the line to its new phase. -/
lemma ledger_setPhase (h : Control g s) {q : Request} {pc : Pc} (hq : (s.pc t).request = some q)
    (hx : (s.pc t).hold = .exclusive) (hr : pc.role = (s.pc t).role) :
    (s.setPc t pc).ledger = s.ledger.setPhase (q.index g) pc.phase := by
  have hw : (s.lines (q.index g)).mu.writer = some t := by
    have := h.held t q hq
    rwa [hx] at this
  have hne : ∀ i, i ≠ q.index g → (s.setPc t pc).phase i = s.phase i := by
    intro i hi
    unfold State.phase
    cases hwi : (s.lines i).mu.writer with
    | none => simp [State.setPc, hwi]
    | some u =>
      have hu : u ≠ t := by
        rintro rfl
        obtain ⟨p, hp, hpi, -⟩ := h.writer u i hwi
        rw [hq] at hp
        cases hp
        exact hi hpi.symm
      simp [State.setPc, hwi, hu]
  have hself : (s.setPc t pc).phase (q.index g) = pc.phase := by
    simp [State.phase, State.setPc, hw]
  have hrole : ∀ u, ((s.setPc t pc).pc u).role = (s.pc u).role := by
    intro u
    by_cases hu : u = t
    · subst hu
      simp [State.setPc, hr]
    · simp [State.setPc, hu]
  simp only [State.ledger, Ledger.setPhase, Ledger.setLine, hrole]
  congr 1
  funext i
  by_cases hi : i = q.index g
  · subst hi
    rw [hself, Function.update_self]
    rfl
  · rw [hne i hi, Function.update_of_ne hi]
    rfl

/-- A line whose buffer and phase stay the same. -/
lemma ledger_setLine {i : ℕ} {l : CacheLine T}
    (hsame : l.local_ptr = (s.lines i).local_ptr ∧ l.ref_counter = (s.lines i).ref_counter)
    (hphase : (s.setLine i l).phase i = s.phase i) : (s.setLine i l).ledger = s.ledger := by
  simp only [State.ledger, State.setLine]
  congr 1
  funext j
  by_cases hj : j = i
  · subst hj
    rw [← hphase]
    simp [State.setLine, State.phase, hsame]
  · simp [State.phase, hj]

lemma phase_moves {i : ℕ} {l : CacheLine T} {k : Hold}
    (hheld : (s.lines i).mu.Holds t (s.pc t).hold) (hk : (s.pc t).phase = .kept)
    (hm : Moves t (s.lines i).mu (s.pc t).hold l.mu k) :
    (s.setLine i l).phase i = s.phase i := by
  have hset : (s.setLine i l).lines i = l := Function.update_self ..
  have hpc : (s.setLine i l).pc = s.pc := rfl
  unfold State.phase
  rw [hset, hpc]
  generalize (s.lines i).mu = m at *
  generalize l.mu = m' at *
  generalize (s.pc t).hold = k' at *
  cases hm with
  | stay => rfl
  | lockShared hl =>
    obtain ⟨h1, h2, -⟩ := lockShared_eq_some.mp hl
    simp [h1, h2]
  | unlockShared => rfl
  | lock hl =>
    obtain ⟨h1, -, h2, -⟩ := lock_eq_some.mp hl
    simp [h1, h2, hk]
  | unlock =>
    have hw : m.writer = some t := hheld
    simp [hw, hk]

variable [Fintype T]

lemma quiet_step (h : Control g s) {q : Request} {m : CacheLine T} {pc' : Pc}
    (hq : (s.pc t).lineRequest = some q)
    (hs : lineStep t (s.lines (q.index g)) (s.pc t) = some (m, pc')) :
    Control g ((s.setLine (q.index g) m).setPc t pc') ∧
      ((s.setLine (q.index g) m).setPc t pc').ledger = s.ledger := by
  have hquiet := lineStep_quiet hq hs
  refine ⟨h.access hquiet.request.1 (.inl hquiet.request.2) hquiet.moves
    (.inl hquiet.same) (fun hn => by rwa [hquiet.same.1]) (fun ha => ?_) (lineStep_ok h hq hs), ?_⟩
  · rcases hquiet.address with he | he
    · rw [he] at ha
      exact .inr (.inr ⟨ha, hquiet.refills⟩)
    · exact .inr (.inl he)
  · rw [ledger_setPc (s := s.setLine (q.index g) m) (hquiet.kept.2.trans hquiet.kept.1.symm),
      ledger_setLine hquiet.same (phase_moves (h.held t q hquiet.request.1) hquiet.kept.1 hquiet.moves)]
    exact setRole_self _ (hquiet.free.1.trans hquiet.free.2.symm)

/-- A step of the cache is a few moves of its account. -/
def Simulates (g : Geometry) (s s' : State T) : Prop :=
  Control g s' ∧ Relation.ReflTransGen Ledger.Step s.ledger s'.ledger

lemma Simulates.of_eq (hc : Control g s') (hl : s'.ledger = s.ledger) : Simulates g s s' :=
  ⟨hc, hl ▸ .refl⟩

lemma Simulates.of_step (hc : Control g s') {l : Ledger T} (hl : s'.ledger = l)
    (hs : Ledger.Step s.ledger l) : Simulates g s s' :=
  ⟨hc, .single (hl ▸ hs)⟩

lemma enter_facts (q : Request) : q.enter.request = some q ∧ q.enter.hold = .none ∧
    q.enter.phase = .kept ∧ q.enter.role = .free ∧ ∀ lines : ℕ → CacheLine T, q.enter.Ok g lines := by
  unfold Request.enter
  split_ifs <;> exact ⟨rfl, rfl, rfl, rfl, fun _ => trivial⟩

lemma next_of_lineRequest {q : Request} (hq : (s.pc t).lineRequest = some q) :
    next g s t = (lineStep t (s.lines (q.index g)) (s.pc t)).map fun x =>
      (s.setLine (q.index g) x.1).setPc t x.2 := by
  have hbind : ∀ {α β : Type} (o : Option α) (f : α → β), (o.bind fun x => some (f x)) = o.map f :=
    fun o f => by cases o <;> rfl
  unfold next
  cases hpc : s.pc t <;> rw [hpc] at hq <;> cases hq <;> exact hbind _ _

lemma sim_tryFree (h : Control g s) {q : Request} (hpc : s.pc t = .tryFree q)
    (hs : next g s t = some s') : Simulates g s s' := by
  obtain ⟨hreq, hhold, hphase, hrole, hok⟩ := enter_facts (g := g) (T := T) q
  simp only [next, hpc] at hs
  cases hp : s.store.dealloc_pool t with
  | nil =>
    simp only [hp, Option.some.injEq] at hs
    subst hs
    exact .of_eq (h.stay (by rw [hpc]; rfl) (.inl hreq) (by rw [hpc, hhold]; rfl)
      (.inr (by rw [hpc]; rfl)) (hok _))
      (ledger_setPc_same (by rw [hpc, hphase]; rfl) (by rw [hpc, hrole]; rfl))
  | cons task tasks =>
    simp only [hp] at hs
    split_ifs at hs with hz <;> cases hs
    · exact .of_step ((h.setStore _).stay (by rw [State.setStore, hpc]; rfl) (.inl hreq)
        (by rw [State.setStore, hpc, hhold]; rfl) (.inr (by rw [State.setStore, hpc]; rfl))
        (hok _)) (ledger_setPc_same (by rw [State.setStore, hpc, hphase]; rfl)
        (by rw [State.setStore, hpc, hrole]; rfl)) (.rotate hp)
    · exact .of_step ((h.setStore _).stay (q := q) (by rw [State.setStore, hpc]; rfl) (.inl rfl)
        (by rw [State.setStore, hpc]; rfl) (.inr (by rw [State.setStore, hpc]; rfl)) trivial)
        (ledger_setPc (by rw [State.setStore, hpc]; rfl))
        (.take (by rw [ledger_role, hpc]; rfl) hp (not_not.mp hz))

/-- A step of the holder of a line that is replacing its buffer. -/
lemma sim_replace (h : Control g s) {q : Request} {pc : Pc} {store : Store T}
    (hq : (s.pc t).request = some q) (hx : (s.pc t).hold = .exclusive)
    (hpc : pc.request = some q) (hx' : pc.hold = .exclusive) (hr : pc.refills = some q)
    (hok : pc.Ok g s.lines) (hrole : pc.role = (s.pc t).role)
    (hs : Ledger.Step s.ledger ((s.ledger.setStore store).setPhase (q.index g) pc.phase)) :
    Simulates g s ((s.setStore store).setPc t pc) :=
  .of_step ((h.setStore store).stay hq (.inl hpc) (hx'.trans hx.symm) (.inl hr) hok)
    (ledger_setPhase (h.setStore store) hq hx hrole) hs

lemma Control.phase_eq (h : Control g s) {q : Request} (hq : (s.pc t).request = some q)
    (hx : (s.pc t).hold = .exclusive) : s.phase (q.index g) = (s.pc t).phase := by
  have hw := h.held t q hq
  rw [hx] at hw
  have hw : (s.lines (q.index g)).mu.writer = some t := hw
  simp only [State.phase, hw]

lemma Control.phase_kept (h : Control g s) {q : Request} (hq : (s.pc t).request = some q)
    (hh : (s.pc t).hold ≠ .none) (hk : (s.pc t).phase = .kept) : s.phase (q.index g) = .kept := by
  have hheld := h.held t q hq
  unfold State.phase
  cases hw : (s.lines (q.index g)).mu.writer with
  | none => rfl
  | some u =>
    have hu : (s.lines (q.index g)).mu.Holds u .exclusive := hw
    rw [← hu.eq_of_exclusive hheld hh]
    exact hk

lemma install_eq {q : Request} {miss : Miss} {data : ℕ}
    (hs : install g s t q miss data = some s') : s' =
    ((s.setStore ((s.store.fetchRef t).2.setCounter (s.store.fetchRef t).1 1)).setLine (q.index g)
      { s.lines (q.index g) with
        local_ptr := some data, priority := q.priority, size := q.bytes,
        ref_counter := (s.store.fetchRef t).1 }).setPc t
          (.increment q (some data) (s.store.fetchRef t).1 true) := by
  simp only [install] at hs
  cases miss with
  | coherence =>
    simp only at hs
    split_ifs at hs
    exact (Option.some.inj hs).symm
  | conflict => exact (Option.some.inj hs).symm

lemma ledger_setLine_eq {i : ℕ} {l : CacheLine T} (hmu : l.mu = (s.lines i).mu) :
    (s.setLine i l).ledger = s.ledger.setLine i ⟨l.local_ptr, l.ref_counter, s.phase i⟩ := by
  simp only [State.ledger, State.setLine, Ledger.setLine]
  congr 1
  funext j
  by_cases hj : j = i
  · subst hj
    simp [State.phase, hmu]
  · simp [State.phase, hj]

lemma ledger_install (h : Control g s) {q : Request} {miss : Miss} {data : ℕ}
    (hpc : s.pc t = .install q miss data) {store : Store T} {l : CacheLine T}
    (hmu : l.mu = (s.lines (q.index g)).mu) {pc : Pc} (hp : pc.phase = .kept) (hr : pc.role = .free) :
    (((s.setStore store).setLine (q.index g) l).setPc t pc).ledger =
      (s.ledger.setStore store).setLine (q.index g) ⟨l.local_ptr, l.ref_counter, .kept⟩ := by
  have hphase := ledger_setPhase (h.setStore store) (q := q)
    (by rw [State.setStore, hpc]; rfl) (by rw [State.setStore, hpc]; rfl)
    (by rw [hr, State.setStore, hpc]; rfl)
  have hline : ((s.setStore store).setPc t pc).phase (q.index g) = .kept := by
    have := congrArg (fun l : Ledger T => (l.line (q.index g)).phase) hphase
    simpa [Ledger.setPhase, State.ledger, hp] using this
  have hset := ledger_setLine_eq (s := (s.setStore store).setPc t pc) (i := q.index g) hmu
  rw [hline, hphase] at hset
  refine hset.trans ?_
  simp [Ledger.setPhase, Ledger.setLine]

lemma sim_next (h : Control g s) (hs : next g s t = some s') : Simulates g s s' := by
  cases hq : (s.pc t).lineRequest with
  | some q =>
    rw [next_of_lineRequest hq] at hs
    obtain ⟨⟨m, pc'⟩, hl, rfl⟩ := Option.map_eq_some_iff.mp hs
    obtain ⟨hc, hledger⟩ := quiet_step h hq hl
    exact .of_eq hc hledger
  | none =>
    cases hpc : s.pc t with
    | tryFree q => exact sim_tryFree h hpc hs
    | freeTask q task =>
      simp only [next, hpc, Option.some.injEq] at hs
      subst hs
      exact .of_step ((h.setStore _).stay (q := q) (by rw [State.setStore, hpc]; rfl) (.inl rfl)
        (by rw [State.setStore, hpc]; rfl) (.inr (by rw [State.setStore, hpc]; rfl)) trivial)
        (ledger_setPc (by rw [State.setStore, hpc]; rfl))
        (.free (by rw [ledger_role, hpc]; rfl))
    | bypass q =>
      simp only [next, hpc] at hs
      split at hs <;> cases hs
      · exact .of_step ((h.setStore _).stay (q := q) (by rw [State.setStore, hpc]; rfl) (.inr rfl)
          (by rw [State.setStore, hpc]; rfl) (.inr (by rw [State.setStore, hpc]; rfl)) trivial)
          (ledger_setPc_same (by rw [State.setStore, hpc]; rfl) (by rw [State.setStore, hpc]; rfl))
          .temp
      · exact .of_step ((h.setStore _).stay (q := q) (by rw [State.setStore, hpc]; rfl) (.inr rfl)
          (by rw [State.setStore, hpc]; rfl) (.inr (by rw [State.setStore, hpc]; rfl)) trivial)
          (ledger_setPc_same (by rw [State.setStore, hpc]; rfl) (by rw [State.setStore, hpc]; rfl))
          (.construct _ (by simp) (by simp))
    | fetch q miss =>
      simp only [next, hpc, Option.some.injEq] at hs
      subst hs
      refine sim_replace h (q := q) (by rw [hpc]; rfl) (by rw [hpc]; rfl) rfl rfl rfl trivial
        (by rw [hpc]; rfl) (.fetch ?_)
      exact (h.phase_eq (by rw [hpc]; rfl) (by rw [hpc]; rfl)).trans (by rw [hpc]; rfl)
    | decrement q miss data =>
      simp only [next, hpc, Option.some.injEq] at hs
      subst hs
      refine sim_replace h (q := q) (by rw [hpc]; rfl) (by rw [hpc]; rfl) rfl rfl rfl ⟨rfl, rfl⟩
        (by rw [hpc]; rfl) (.decrement (b := data) ?_)
      exact (h.phase_eq (by rw [hpc]; rfl) (by rw [hpc]; rfl)).trans (by rw [hpc]; rfl)
    | testZero q miss data old =>
      have hphase : s.phase (q.index g) = .dropped data false :=
        (h.phase_eq (by rw [hpc]; rfl) (by rw [hpc]; rfl)).trans (by rw [hpc]; rfl)
      have hok := h.ok t
      rw [hpc] at hok
      obtain ⟨hptr, href⟩ := hok
      simp only [next, hpc] at hs
      split_ifs at hs with hz hb <;> cases hs
      · refine sim_replace h (q := q) (by rw [hpc]; rfl) (by rw [hpc]; rfl) rfl
          rfl rfl ⟨hptr, href⟩ (by rw [hpc]; rfl) (.zero (b := data) hphase ?_)
        rw [href] at hz
        exact hz
      · refine sim_replace h (q := q) (by rw [hpc]; rfl) (by rw [hpc]; rfl) rfl rfl rfl trivial
          (by rw [hpc]; rfl) (.enqueue t hphase ?_ hptr href)
        rw [hptr] at hb
        exact hb
      · rw [href]
        refine sim_replace h (q := q) (by rw [hpc]; rfl) (by rw [hpc]; rfl) rfl rfl rfl trivial
          (by rw [hpc]; rfl) (.recycle t hphase ?_)
        rw [hptr] at hb
        exact not_not.mp hb
    | freeOld q miss data old =>
      have hphase : s.phase (q.index g) = .dropped data true :=
        (h.phase_eq (by rw [hpc]; rfl) (by rw [hpc]; rfl)).trans (by rw [hpc]; rfl)
      have hok := h.ok t
      rw [hpc] at hok
      obtain ⟨hptr, href⟩ := hok
      simp only [next, hpc, Option.some.injEq] at hs
      subst hs
      rw [href, hptr]
      exact sim_replace h (q := q) (by rw [hpc]; rfl) (by rw [hpc]; rfl) rfl rfl rfl trivial
        (by rw [hpc]; rfl) (.freeOld t hphase)
    | install q miss data =>
      have hphase : s.phase (q.index g) = .gone data :=
        (h.phase_eq (by rw [hpc]; rfl) (by rw [hpc]; rfl)).trans (by rw [hpc]; rfl)
      simp only [next, hpc] at hs
      rw [install_eq hs]
      refine .of_step ((h.setStore _).access (q := q) (by rw [State.setStore, hpc]; rfl) (.inl rfl)
        (by rw [State.setStore, hpc]; exact .stay) (.inr (by rw [State.setStore, hpc]; rfl))
        (fun _ => (by simp)) (fun _ => .inl (by simp)) ⟨by simp, ?_⟩)
        (ledger_install h hpc (by rfl) rfl rfl) (.install t hphase)
      rw [Function.update_self]
      exact ⟨rfl, rfl⟩
    | increment q result ref w =>
      obtain ⟨hb, hptr, href⟩ : (Pc.increment q result ref w).Ok g s.lines := hpc ▸ h.ok t
      obtain ⟨b, rfl⟩ := Option.ne_none_iff_exists'.mp hb
      have hkept : s.phase (q.index g) = .kept :=
        h.phase_kept (by rw [hpc]; rfl) (by rw [hpc]; cases w <;> simp [Pc.hold]) (by rw [hpc]; rfl)
      simp only [next, hpc, Option.some.injEq] at hs
      subst hs
      rw [← href]
      exact .of_step ((h.setStore _).stay (q := q) (by rw [State.setStore, hpc]; rfl) (.inl rfl)
        (by rw [State.setStore, hpc]; rfl) (.inr (by rw [State.setStore, hpc]; rfl)) trivial)
        (ledger_setPc (by rw [State.setStore, hpc]; rfl))
        (.increment (by rw [ledger_role, hpc]; rfl) hkept hptr)
    | unlock q result ref w =>
      have hmoves : Moves t (s.lines (q.index g)).mu (s.pc t).hold
          (if w then (s.lines (q.index g)).mu.unlock else (s.lines (q.index g)).mu.unlockShared t)
          .none := by
        rw [hpc]
        cases w
        · exact .unlockShared
        · exact .unlock
      have hheld := h.held t q (by rw [hpc]; rfl)
      simp only [next, hpc, Option.some.injEq] at hs
      subst hs
      refine .of_step ((h.setStore _).access (q := q) (by rw [State.setStore, hpc]; rfl) (.inr rfl)
        (by exact hmoves) (.inl ⟨rfl, rfl⟩) id
        (fun ha => .inr (.inr ⟨ha, by rw [State.setStore, hpc]; rfl⟩)) trivial) ?_
        (.finish (by rw [ledger_role, hpc]; rfl))
      have hline : ((s.setStore (s.store.construct (.counted result ref))).setLine (q.index g)
          { s.lines (q.index g) with
            mu := if w then (s.lines (q.index g)).mu.unlock
              else (s.lines (q.index g)).mu.unlockShared t }).ledger =
          s.ledger.setStore (s.store.construct (.counted result ref)) :=
        ledger_setLine ⟨rfl, rfl⟩
          (phase_moves (by exact hheld) (by rw [State.setStore, hpc]; rfl) (by exact hmoves))
      rw [ledger_setPc (by rw [State.setLine, State.setStore, hpc]; rfl), hline]
      rfl
    | idle => simp [next, hpc, Pc.lineRequest] at hs
    | _ =>
      rw [hpc] at hq
      cases hq

/-- The invalid bit of a line may be set at any time. -/
lemma control_invalidate (h : Control g s) (i : ℕ) :
    Control g (s.setLine i { s.lines i with address := markPtr (s.lines i).address }) := by
  have hl : ∀ j, (Function.update s.lines i
      { s.lines i with address := markPtr (s.lines i).address } j).mu = (s.lines j).mu ∧
      (Function.update s.lines i
        { s.lines i with address := markPtr (s.lines i).address } j).local_ptr =
          (s.lines j).local_ptr ∧
      (Function.update s.lines i
        { s.lines i with address := markPtr (s.lines i).address } j).ref_counter =
          (s.lines j).ref_counter ∧
      unmarkPtr (Function.update s.lines i
        { s.lines i with address := markPtr (s.lines i).address } j).address =
          unmarkPtr (s.lines j).address := by
    intro j
    by_cases hj : j = i
    · subst hj
      simp
    · simp [hj]
  refine ⟨fun u q hq => ?_, fun u j hw => ?_, fun j hj => ?_, fun u => ?_⟩
  · simp only [State.setLine, (hl _).1]
    exact h.held u q hq
  · simp only [State.setLine, (hl _).1] at hw
    exact h.writer u j hw
  · simp only [State.setLine, (hl _).2.2.2, (hl _).2.1] at hj ⊢
    exact h.filled j hj
  · exact (h.ok u).frame fun q _ _ => ⟨(hl _).2.1, (hl _).2.2.1⟩

/-- A thread begins a read. -/
lemma control_read (h : Control g s) (hpc : s.pc t = .idle) (q : Request) :
    Control g (s.setPc t (.tryFree q)) := by
  have hne : ∀ u, u ≠ t → (s.setPc t (.tryFree q)).pc u = s.pc u :=
    fun u hu => Function.update_of_ne hu ..
  have hself : (s.setPc t (.tryFree q)).pc t = .tryFree q := Function.update_self ..
  have hbusy : ∀ u, (s.pc u).request ≠ none → u ≠ t := by
    rintro u hu rfl
    rw [hpc] at hu
    exact hu rfl
  refine ⟨fun u p hp => ?_, fun u i hw => ?_, fun i hi => ?_, fun u => ?_⟩
  · by_cases hu : u = t
    · subst hu
      rw [hself]
      trivial
    · rw [hne u hu] at hp ⊢
      exact h.held u p hp
  · obtain ⟨p, hp, hpi, hx⟩ := h.writer u i hw
    rw [hne u (hbusy u (by simp [hp]))]
    exact ⟨p, hp, hpi, hx⟩
  · refine (h.filled i hi).imp id ?_
    rintro ⟨u, p, hp, hpi⟩
    refine ⟨u, p, ?_, hpi⟩
    rw [hne u (hbusy u (by simp [(Pc.hold_of_refills hp).1]))]
    exact hp
  · by_cases hu : u = t
    · subst hu
      rw [hself]
      trivial
    · rw [hne u hu]
      exact h.ok u

theorem sim_step (h : Control g s) {a : Act T} (hs : step g s a = some s') :
    Simulates g s s' := by
  cases a with
  | read t q =>
    simp only [step] at hs
    split at hs <;> cases hs
    rename_i hpc
    exact .of_eq (control_read h hpc q)
      (ledger_setPc_same (by rw [hpc]; rfl) (by rw [hpc]; rfl))
  | next t => exact sim_next h hs
  | invalidate i =>
    cases hs
    exact .of_eq (control_invalidate h i) (ledger_setLine ⟨rfl, rfl⟩ (by simp [State.phase, State.setLine]))
  | construct =>
    cases hs
    exact .of_step (h.setStore _) rfl (.construct _ (by simp) (by simp))
  | moveConstruct k =>
    obtain ⟨o, ho, rfl⟩ := Option.map_eq_some_iff.mp hs
    have hk := (List.getElem?_eq_some_iff.mp ho).1
    refine ⟨h.setStore _, .tail (.single (.construct .empty (by simp) (by simp))) ?_⟩
    have hmove := Ledger.Step.move (l := s.ledger.setStore (s.ledger.store.construct .empty))
      (k := s.store.objects.length) (j := k) (o := o) hk.ne'
      (by simp [Store.construct, State.ledger])
      (by simp [Store.construct, State.ledger, List.getElem?_append_left hk, ho])
    have heq : (s.store.setObject k .empty).construct o =
        ((s.store.construct .empty).setObject s.store.objects.length o).setObject k .empty := by
      simp [Store.setObject, Store.construct, List.set_append_left, hk]
    rw [ledger_setStore, heq]
    exact hmove
  | moveAssign k j =>
    simp only [step] at hs
    split at hs <;> cases hs
    rename_i old o hk hj
    by_cases hkj : k = j
    · subst hkj
      refine .of_step (h.setStore _) ?_ (.drop hk)
      simp [Store.setObject, State.ledger, Ledger.setStore, State.setStore, State.phase]
    · have hdrop : ∀ x : CachedObject, (s.store.drop x).objects = s.store.objects := by
        intro x
        rcases Ledger.drop_cases s.store x with ⟨_, _, -, hd⟩ | ⟨_, _, -, hd⟩ | ⟨-, -, hd⟩ <;>
          rw [hd] <;> rfl
      refine ⟨h.setStore _, .tail (.single (.drop hk)) ?_⟩
      have hmove := Ledger.Step.move
        (l := s.ledger.setStore ((s.ledger.store.drop old).setObject k .empty)) (k := k) (j := j)
        (o := o) hkj
        (by simp [Store.setObject, State.ledger, hdrop, (List.getElem?_eq_some_iff.mp hk).1])
        (by simp [Store.setObject, State.ledger, hdrop, hkj, hj])
      have heq : ((s.store.drop old).setObject k o).setObject j .empty =
          (((s.store.drop old).setObject k .empty).setObject k o).setObject j .empty := by
        simp [Store.setObject]
      rw [ledger_setStore, heq]
      exact hmove
  | destroy k =>
    obtain ⟨o, ho, rfl⟩ := Option.map_eq_some_iff.mp hs
    exact .of_step (h.setStore _) rfl (.drop ho)

end ObjectCache.Cache.Buffers
