import ObjectCache.Lib.Transition
import Mathlib.Data.List.Nodup
import Mathlib.Logic.Function.Basic
import Mathlib.Order.Nat

/-! Linearizability of histories of calls and returns, and the atomic machine that every
linearizable object simulates. -/

set_option linter.unusedSectionVars false

namespace ObjectCache.Lib

structure Object (σ Op Ret : Type*) where
  init : σ
  apply : σ → Op → σ × Ret

inductive Event (T Op Ret : Type*) where
  | call (t : T) (op : Op)
  | ret (t : T) (r : Ret)

variable {σ T Op Ret : Type*}

def Event.thread : Event T Op Ret → T
  | .call t _ | .ret t _ => t

abbrev History (T Op Ret : Type*) := List (Event T Op Ret)

namespace History

/-- The call at position `i` is the last event of its thread. -/
def Open (h : History T Op Ret) (t : T) (i : ℕ) (op : Op) : Prop :=
  h[i]? = some (.call t op) ∧ ∀ k, i < k → ∀ e, h[k]? = some e → e.thread ≠ t

/-- The call at position `i` returned `r` at position `j`. -/
def Returns (h : History T Op Ret) (i j : ℕ) (r : Ret) : Prop :=
  ∃ t op, h[i]? = some (.call t op) ∧ h[j]? = some (.ret t r) ∧ i < j ∧
    ∀ k, i < k → k < j → ∀ e, h[k]? = some e → e.thread ≠ t

variable {h : History T Op Ret} {e : Event T Op Ret} {t : T} {i j : ℕ} {op : Op} {r : Ret}

lemma getElem?_append_one (k : ℕ) (x : Event T Op Ret) :
    (h ++ [e])[k]? = some x ↔ h[k]? = some x ∨ k = h.length ∧ e = x := by
  rcases Nat.lt_trichotomy k h.length with hk | rfl | hk
  · rw [List.getElem?_append_left hk]
    exact ⟨.inl, fun hx => hx.resolve_right fun hx => absurd hx.1 hk.ne⟩
  · simp
  · have hnone : h[k]? = none := List.getElem?_eq_none hk.le
    have hnone' : (h ++ [e])[k]? = none := List.getElem?_eq_none (by simp; omega)
    rw [hnone, hnone']
    exact iff_of_false (by simp) (by rintro (hx | ⟨hx, -⟩) <;> [cases hx; omega])

lemma lt_of_getElem? {k : ℕ} {x : Event T Op Ret} (hx : h[k]? = some x) : k < h.length :=
  (List.getElem?_eq_some_iff.mp hx).1

lemma Open.lt (ho : h.Open t i op) : i < h.length := lt_of_getElem? ho.1

lemma Returns.lt (hr : h.Returns i j r) : i < j ∧ j < h.length := by
  obtain ⟨t, op, -, hj, hij, -⟩ := hr
  exact ⟨hij, lt_of_getElem? hj⟩

lemma Open.unique {op' : Op} {i' : ℕ} (ho : h.Open t i op) (ho' : h.Open t i' op') :
    i = i' ∧ op = op' := by
  rcases Nat.lt_trichotomy i i' with hlt | rfl | hlt
  · exact absurd rfl (ho.2 i' hlt _ ho'.1)
  · have heq := ho.1.symm.trans ho'.1
    simp only [Option.some.injEq, Event.call.injEq, true_and] at heq
    exact ⟨rfl, heq⟩
  · exact absurd rfl (ho'.2 i hlt _ ho.1)

lemma Open.not_returns (ho : h.Open t i op) : ¬ h.Returns i j r := by
  rintro ⟨t', op', hi, hj, hij, -⟩
  have heq := ho.1.symm.trans hi
  simp only [Option.some.injEq, Event.call.injEq] at heq
  obtain ⟨rfl, -⟩ := heq
  exact absurd rfl (ho.2 j hij _ hj)

lemma Open.append_other (ho : h.Open t i op) (he : e.thread ≠ t) : (h ++ [e]).Open t i op := by
  refine ⟨(getElem?_append_one i _).mpr (.inl ho.1), fun k hk x hx => ?_⟩
  rcases (getElem?_append_one k x).mp hx with hx | ⟨-, rfl⟩
  · exact ho.2 k hk x hx
  · exact he

lemma open_append_call : (h ++ [Event.call t op]).Open t h.length op := by
  refine ⟨(getElem?_append_one _ _).mpr (.inr ⟨rfl, rfl⟩), fun k hk x hx => ?_⟩
  rcases (getElem?_append_one k x).mp hx with hx | ⟨rfl, -⟩
  · exact absurd (lt_of_getElem? hx) (by omega)
  · omega

lemma returns_append : (h ++ [e]).Returns i j r ↔
    h.Returns i j r ∨ j = h.length ∧ ∃ t op, e = .ret t r ∧ h.Open t i op := by
  constructor
  · rintro ⟨t, op, hi, hj, hij, hk⟩
    have hi' : h[i]? = some (.call t op) := by
      rcases (getElem?_append_one i _).mp hi with hi | ⟨rfl, -⟩
      · exact hi
      · have hlt := lt_of_getElem? hj
        simp only [List.length_append, List.length_singleton] at hlt
        omega
    have hk' : ∀ k, i < k → k < j → ∀ x, h[k]? = some x → x.thread ≠ t :=
      fun k h₁ h₂ x hx => hk k h₁ h₂ x ((getElem?_append_one k x).mpr (.inl hx))
    rcases (getElem?_append_one j _).mp hj with hj | ⟨rfl, rfl⟩
    · exact .inl ⟨t, op, hi', hj, hij, hk'⟩
    · exact .inr ⟨rfl, t, op, rfl, hi', fun k h₁ x hx => hk' k h₁ (lt_of_getElem? hx) x hx⟩
  · rintro (⟨t, op, hi, hj, hij, hk⟩ | ⟨rfl, t, op, rfl, ho⟩)
    · refine ⟨t, op, (getElem?_append_one i _).mpr (.inl hi), (getElem?_append_one j _).mpr (.inl hj),
        hij, fun k h₁ h₂ x hx => ?_⟩
      rcases (getElem?_append_one k x).mp hx with hx | ⟨rfl, -⟩
      · exact hk k h₁ h₂ x hx
      · exact absurd (lt_of_getElem? hj) (by omega)
    · refine ⟨t, op, (getElem?_append_one i _).mpr (.inl ho.1),
        (getElem?_append_one _ _).mpr (.inr ⟨rfl, rfl⟩), ho.lt, fun k h₁ h₂ x hx => ?_⟩
      rcases (getElem?_append_one k x).mp hx with hx | ⟨rfl, -⟩
      · exact ho.2 k h₁ x hx
      · omega

end History

/-- A call that has taken effect, by its position in the history. -/
structure Commit (Op Ret : Type*) where
  call : ℕ
  op : Op
  ret : Ret

/-- The commits give the object's own answers and lead to `s`. -/
inductive Object.Legal (O : Object σ Op Ret) : List (Commit Op Ret) → σ → Prop
  | nil : Legal O [] O.init
  | snoc {L s c} : Legal O L s → c.ret = (O.apply s c.op).2 →
      Legal O (L ++ [c]) (O.apply s c.op).1

/-- An order of effects: one for each call that has returned, with its answer, possibly some for
calls that are still open; no call that began after another's return comes before it. -/
structure Linearization (O : Object σ Op Ret) (h : History T Op Ret) (L : List (Commit Op Ret))
    (s : σ) : Prop where
  legal : O.Legal L s
  called : ∀ c ∈ L, ∃ t, h[c.call]? = some (.call t c.op)
  nodup : (L.map Commit.call).Nodup
  returned : ∀ {i j r}, h.Returns i j r → ∃ c ∈ L, c.call = i ∧ c.ret = r
  order : L.Pairwise fun c d => ¬ ∃ j r, h.Returns d.call j r ∧ j < c.call

def Linearizable (O : Object σ Op Ret) (h : History T Op Ret) : Prop :=
  ∃ L s, Linearization O h L s

/-! ### The atomic machine -/

inductive Status (Op Ret : Type*) where
  | idle
  | called (op : Op)
  | done (r : Ret)

/-- The object, and where each thread stands in its call. -/
structure Atomic (σ T Op Ret : Type*) where
  state : σ
  status : T → Status Op Ret

namespace Atomic

variable [DecidableEq T]

def setStatus (a : Atomic σ T Op Ret) (t : T) (st : Status Op Ret) : Atomic σ T Op Ret :=
  { a with status := Function.update a.status t st }

lemma setStatus_self {a : Atomic σ T Op Ret} {t : T} {st : Status Op Ret} :
    (a.setStatus t st).status t = st := Function.update_self ..

lemma setStatus_other {a : Atomic σ T Op Ret} {t u : T} {st : Status Op Ret} (hu : u ≠ t) :
    (a.setStatus t st).status u = a.status u := Function.update_of_ne hu ..

/-- Histories of the machine whose calls take effect in one step between call and return. -/
inductive Run (O : Object σ Op Ret) : History T Op Ret → Atomic σ T Op Ret → Prop
  | init : Run O [] ⟨O.init, fun _ => .idle⟩
  | call {h a t op} : Run O h a → a.status t = .idle →
      Run O (h ++ [.call t op]) (a.setStatus t (.called op))
  | commit {h a t op} : Run O h a → a.status t = .called op →
      Run O h ({ a with state := (O.apply a.state op).1 }.setStatus t
        (.done (O.apply a.state op).2))
  | ret {h a t r} : Run O h a → a.status t = .done r →
      Run O (h ++ [.ret t r]) (a.setStatus t .idle)

/-- What a status says about the thread's last call. -/
def Tracks (h : History T Op Ret) (L : List (Commit Op Ret)) (t : T) : Status Op Ret → Prop
  | .idle => ∀ i op, ¬ h.Open t i op
  | .called op => ∃ i, h.Open t i op ∧ ∀ c ∈ L, c.call ≠ i
  | .done r => ∃ i op, h.Open t i op ∧ ⟨i, op, r⟩ ∈ L

variable {O : Object σ Op Ret} {h : History T Op Ret} {L : List (Commit Op Ret)}
  {a : Atomic σ T Op Ret} {t : T} {op : Op} {r : Ret} {s : σ}

lemma Tracks.append_other {e : Event T Op Ret} {st : Status Op Ret} (ht : Tracks h L t st)
    (he : e.thread ≠ t) : Tracks (h ++ [e]) L t st := by
  cases st with
  | idle =>
    rintro i op ⟨hi, hk⟩
    rcases (History.getElem?_append_one i _).mp hi with hi | ⟨-, rfl⟩
    · exact ht i op ⟨hi, fun k h₁ x hx => hk k h₁ x ((History.getElem?_append_one k x).mpr (.inl hx))⟩
    · exact he rfl
  | called op =>
    obtain ⟨i, ho, hi⟩ := ht
    exact ⟨i, ho.append_other he, hi⟩
  | done r =>
    obtain ⟨i, op, ho, hm⟩ := ht
    exact ⟨i, op, ho.append_other he, hm⟩

/-- A commit in the call that `t` has open. -/
lemma Tracks.snoc_other {u : T} {i : ℕ} {st : Status Op Ret} (ht : Tracks h L u st)
    (ho : h.Open t i op) (hu : u ≠ t) : Tracks h (L ++ [⟨i, op, r⟩]) u st := by
  cases st with
  | idle => exact ht
  | called op' =>
    obtain ⟨j, ho', hj⟩ := ht
    refine ⟨j, ho', fun c hc => ?_⟩
    rcases List.mem_append.mp hc with hc | hc
    · exact hj c hc
    · rw [List.mem_singleton.mp hc]
      rintro rfl
      have heq := ho.1.symm.trans ho'.1
      simp only [Option.some.injEq, Event.call.injEq] at heq
      exact hu heq.1.symm
  | done r' =>
    obtain ⟨j, op', ho', hm⟩ := ht
    exact ⟨j, op', ho', List.mem_append_left _ hm⟩

lemma linearization_call (hl : Linearization O h L s) :
    Linearization O (h ++ [Event.call t op]) L s := by
  have hret : ∀ {i j r}, (h ++ [Event.call t op]).Returns i j r ↔ h.Returns i j r := by
    intro i j r
    rw [History.returns_append]
    refine ⟨fun hr => hr.resolve_right ?_, .inl⟩
    rintro ⟨-, u, op', he, -⟩
    cases he
  refine ⟨hl.legal, fun c hc => ?_, hl.nodup, fun hr => hl.returned (hret.mp hr), ?_⟩
  · obtain ⟨u, hu⟩ := hl.called c hc
    exact ⟨u, (History.getElem?_append_one _ _).mpr (.inl hu)⟩
  · simp only [hret]
    exact hl.order

lemma linearization_commit {i : ℕ} (hl : Linearization O h L s) (ho : h.Open t i op)
    (hi : ∀ c ∈ L, c.call ≠ i) :
    Linearization O h (L ++ [⟨i, op, (O.apply s op).2⟩]) (O.apply s op).1 where
  legal := .snoc hl.legal rfl
  called c hc := by
    rcases List.mem_append.mp hc with hc | hc
    · exact hl.called c hc
    · rw [List.mem_singleton.mp hc]
      exact ⟨t, ho.1⟩
  nodup := by
    rw [List.map_append, List.nodup_append_comm]
    refine List.nodup_cons.mpr ⟨fun hm => ?_, hl.nodup⟩
    obtain ⟨c, hc, hci⟩ := List.mem_map.mp hm
    exact hi c hc hci
  returned hr := by
    obtain ⟨c, hc, hcr⟩ := hl.returned hr
    exact ⟨c, List.mem_append_left _ hc, hcr⟩
  order := by
    refine List.pairwise_append.mpr ⟨hl.order, List.pairwise_singleton _ _, fun c hc d hd => ?_⟩
    rw [List.mem_singleton.mp hd]
    rintro ⟨j, r, hr, -⟩
    exact ho.not_returns hr

lemma linearization_ret {i : ℕ} (hl : Linearization O h L s) (ho : h.Open t i op)
    (hm : ⟨i, op, r⟩ ∈ L) : Linearization O (h ++ [Event.ret t r]) L s where
  legal := hl.legal
  called c hc := by
    obtain ⟨u, hu⟩ := hl.called c hc
    exact ⟨u, (History.getElem?_append_one _ _).mpr (.inl hu)⟩
  nodup := hl.nodup
  returned {i' j r'} hr := by
    rcases History.returns_append.mp hr with hr | ⟨-, u, op', he, ho'⟩
    · exact hl.returned hr
    · cases he
      obtain ⟨rfl, rfl⟩ := ho.unique ho'
      exact ⟨_, hm, rfl, rfl⟩
  order := by
    refine hl.order.imp_of_mem fun {c d} hc _ hcd => ?_
    rintro ⟨j, r', hr, hj⟩
    rcases History.returns_append.mp hr with hr | ⟨rfl, -⟩
    · exact hcd ⟨j, r', hr, hj⟩
    · obtain ⟨u, hu⟩ := hl.called c hc
      exact absurd (History.lt_of_getElem? hu) (by omega)

/-- The machine's own order of commits linearizes each of its histories. -/
theorem Run.linearization (hr : Run O h a) :
    ∃ L, Linearization O h L a.state ∧ ∀ t, Tracks h L t (a.status t) := by
  induction hr with
  | init =>
    refine ⟨[], ⟨.nil, by simp, by simp, ?_, .nil⟩, ?_⟩
    · rintro i j r ⟨t, op, hi, -⟩
      simp at hi
    · rintro t i op ⟨hi, -⟩
      simp at hi
  | @call h a t op _ hidle ih =>
    obtain ⟨L, hl, ht⟩ := ih
    refine ⟨L, linearization_call hl, fun u => ?_⟩
    by_cases hu : u = t
    · subst hu
      simp only [setStatus, Function.update_self]
      refine ⟨h.length, History.open_append_call, fun c hc => ?_⟩
      obtain ⟨w, hw⟩ := hl.called c hc
      exact (History.lt_of_getElem? hw).ne
    · simp only [setStatus, Function.update_of_ne hu]
      exact (ht u).append_other (Ne.symm hu)
  | @commit h a t op _ hcalled ih =>
    obtain ⟨L, hl, ht⟩ := ih
    have hop := ht t
    rw [hcalled] at hop
    obtain ⟨i, ho, hi⟩ := hop
    refine ⟨_, linearization_commit hl ho hi, fun u => ?_⟩
    by_cases hu : u = t
    · subst hu
      simp only [setStatus, Function.update_self]
      exact ⟨i, op, ho, by simp⟩
    · simp only [setStatus, Function.update_of_ne hu]
      exact (ht u).snoc_other ho hu
  | @ret h a t r _ hdone ih =>
    obtain ⟨L, hl, ht⟩ := ih
    have hop := ht t
    rw [hdone] at hop
    obtain ⟨i, op, ho, hm⟩ := hop
    refine ⟨L, linearization_ret hl ho hm, fun u => ?_⟩
    by_cases hu : u = t
    · subst hu
      simp only [setStatus, Function.update_self]
      rintro j op' ⟨hj, hk⟩
      rcases (History.getElem?_append_one j _).mp hj with hj | ⟨-, he⟩
      · exact hk h.length (History.lt_of_getElem? hj) _
          ((History.getElem?_append_one _ _).mpr (.inr ⟨rfl, rfl⟩)) rfl
      · cases he
    · simp only [setStatus, Function.update_of_ne hu]
      exact (ht u).append_other (Ne.symm hu)

lemma returns_append_of {e : Event T Op Ret} {i j : ℕ} (hr : h.Returns i j r) :
    (h ++ [e]).Returns i j r :=
  History.returns_append.mpr (.inl hr)

/-- A call that has not returned is still open. -/
lemma Run.open_or_returns (hr : Run O h a) : ∀ i t op, h[i]? = some (.call t op) →
    h.Open t i op ∨ ∃ j r, h.Returns i j r := by
  induction hr with
  | init =>
    intro i t op hi
    simp at hi
  | @call h a t op hr hidle ih =>
    obtain ⟨L, -, ht⟩ := hr.linearization
    have hnot := ht t
    rw [hidle] at hnot
    intro i u op' hi
    rcases (History.getElem?_append_one i _).mp hi with hi | ⟨rfl, he⟩
    · rcases ih i u op' hi with ho | ⟨j, r, hr⟩
      · refine .inl (ho.append_other ?_)
        rintro rfl
        exact hnot i op' ho
      · exact .inr ⟨j, r, returns_append_of hr⟩
    · cases he
      exact .inl History.open_append_call
  | commit _ _ ih => exact ih
  | @ret h a t r _ _ ih =>
    intro i u op hi
    rcases (History.getElem?_append_one i _).mp hi with hi | ⟨-, he⟩
    · rcases ih i u op hi with ho | ⟨j, r', hr⟩
      · by_cases hu : u = t
        · subst hu
          exact .inr ⟨h.length, r, History.returns_append.mpr (.inr ⟨rfl, u, op, rfl, ho⟩)⟩
        · exact .inl (ho.append_other (Ne.symm hu))
      · exact .inr ⟨j, r', returns_append_of hr⟩
    · cases he

/-- With no call in progress the commits are the calls that have returned. -/
theorem Run.complete (hr : Run O h a) (hidle : ∀ t, a.status t = .idle) :
    ∃ L, Linearization O h L a.state ∧ ∀ c ∈ L, ∃ j, h.Returns c.call j c.ret := by
  obtain ⟨L, hl, ht⟩ := hr.linearization
  refine ⟨L, hl, fun c hc => ?_⟩
  obtain ⟨t, hcall⟩ := hl.called c hc
  have hnot := ht t
  rw [hidle t] at hnot
  obtain ⟨j, r, hj⟩ := (hr.open_or_returns _ _ _ hcall).resolve_left (hnot _ _)
  obtain ⟨d, hd, hdc, rfl⟩ := hl.returned hj
  obtain rfl : d = c := List.inj_on_of_nodup_map hl.nodup hd hc hdc
  exact ⟨j, hj⟩

end Atomic

/-! ### Machines that simulate it -/

section Simulation

variable {S α : Type*} [DecidableEq T] {M : Machine S α} {O : Object σ Op Ret}

/-- The events a run shows up to a position. -/
def Machine.Run.history (r : M.Run) (obs : S → α → Option (Event T Op Ret)) :
    ℕ → History T Op Ret
  | 0 => []
  | i + 1 => r.history obs i ++ (obs (r.state i) (r.act i)).toList

/-- Each step shows and does what some steps of the atomic machine do. -/
structure Simulates (M : Machine S α) (O : Object σ Op Ret) (obs : S → α → Option (Event T Op Ret))
    (R : S → Atomic σ T Op Ret → Prop) : Prop where
  init : ∀ s, M.init s → R s ⟨O.init, fun _ => .idle⟩
  step : ∀ s x s' a h, R s a → Atomic.Run O h a → M.step s x = some s' →
    ∃ a', Atomic.Run O (h ++ (obs s x).toList) a' ∧ R s' a'

variable {obs : S → α → Option (Event T Op Ret)} {R : S → Atomic σ T Op Ret → Prop}

theorem Simulates.run (hs : Simulates M O obs R) (r : M.Run) :
    ∀ i ≤ r.len, ∃ a, Atomic.Run O (r.history obs i) a ∧ R (r.state i) a := by
  intro i
  induction i with
  | zero => exact fun _ => ⟨_, .init, hs.init _ r.start⟩
  | succ i ih =>
    intro hi
    obtain ⟨a, ha, hr⟩ := ih (by omega)
    exact hs.step _ _ _ _ _ hr ha (r.next i (by omega))

theorem Simulates.linearizable (hs : Simulates M O obs R) (r : M.Run) {i : ℕ} (hi : i ≤ r.len) :
    Linearizable O (r.history obs i) := by
  obtain ⟨a, ha, -⟩ := hs.run r i hi
  obtain ⟨L, hl, -⟩ := ha.linearization
  exact ⟨L, _, hl⟩

/-- The same for one run, with an object that starts where the run does. -/
theorem linearizable_of_steps (r : M.Run) (hinit : R (r.state 0) ⟨O.init, fun _ => .idle⟩)
    (hstep : ∀ s x s' a h, R s a → Atomic.Run O h a → M.step s x = some s' →
      ∃ a', Atomic.Run O (h ++ (obs s x).toList) a' ∧ R s' a') {i : ℕ} (hi : i ≤ r.len) :
    Linearizable O (r.history obs i) := by
  have hrun : ∀ i ≤ r.len, ∃ a, Atomic.Run O (r.history obs i) a ∧ R (r.state i) a := by
    intro i
    induction i with
    | zero => exact fun _ => ⟨_, .init, hinit⟩
    | succ i ih =>
      intro hi
      obtain ⟨a, ha, hr⟩ := ih (by omega)
      exact hstep _ _ _ _ _ hr ha (r.next i (by omega))
  obtain ⟨a, ha, -⟩ := hrun i hi
  obtain ⟨L, hl, -⟩ := ha.linearization
  exact ⟨L, _, hl⟩

end Simulation

end ObjectCache.Lib
