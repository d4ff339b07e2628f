import Mathlib.Data.Nat.Init
import Mathlib.Data.List.GetD
import Mathlib.Tactic.Common

/-! Transition systems whose nondeterminism is resolved by an action, their runs and the
induction rules on runs. -/

namespace ObjectCache.Lib

structure Machine (σ α : Type*) where
  init : σ → Prop
  step : σ → α → Option σ

variable {σ α : Type*}

/-- A run of `len` steps; the values of `state` and `act` past the end mean nothing. -/
structure Machine.Run (M : Machine σ α) where
  len : ℕ
  state : ℕ → σ
  act : ℕ → α
  start : M.init (state 0)
  next : ∀ i < len, M.step (state i) (act i) = some (state (i + 1))

inductive Machine.Reachable (M : Machine σ α) : σ → Prop
  | init {s} : M.init s → Reachable M s
  | step {s s' a} : Reachable M s → M.step s a = some s' → Reachable M s'

namespace Machine

variable {M : Machine σ α}

theorem Run.reachable (r : M.Run) : ∀ i ≤ r.len, M.Reachable (r.state i)
  | 0, _ => .init r.start
  | i + 1, hi => .step (r.reachable i (by omega)) (r.next i (by omega))

theorem Reachable.invariant {I : σ → Prop} (hi : ∀ s, M.init s → I s)
    (hs : ∀ s a s', I s → M.step s a = some s' → I s') {s : σ} (h : M.Reachable s) : I s := by
  induction h with
  | init h => exact hi _ h
  | step _ he ih => exact hs _ _ _ ih he

/-- One more step. -/
def Run.snoc (r : M.Run) (a : α) (s : σ) (h : M.step (r.state r.len) a = some s) : M.Run where
  len := r.len + 1
  state i := if i ≤ r.len then r.state i else s
  act i := if i < r.len then r.act i else a
  start := by simpa using r.start
  next i hi := by
    rcases Nat.lt_or_ge i r.len with hlt | hge
    · simpa [hlt, Nat.le_of_lt hlt, Nat.succ_le_of_lt hlt] using r.next i hlt
    · obtain rfl : i = r.len := Nat.le_antisymm (Nat.le_of_lt_succ hi) hge
      simpa [Nat.not_succ_le_self] using h

/-- What holds at position `k` and is kept by every later step holds from `k` on. -/
theorem Run.from_on (r : M.Run) {I : ℕ → σ → Prop} {k n : ℕ} (hn : n ≤ r.len)
    (hk : I k (r.state k))
    (hs : ∀ i, k ≤ i → i < n → I i (r.state i) →
      M.step (r.state i) (r.act i) = some (r.state (i + 1)) → I (i + 1) (r.state (i + 1))) :
    ∀ i, k ≤ i → i ≤ n → I i (r.state i) := by
  intro i hki hin
  induction i, hki using Nat.le_induction with
  | base => exact hk
  | succ i hki ih => exact hs i hki (by omega) (ih (by omega)) (r.next i (by omega))

/-- The state after a list of actions. -/
def exec (M : Machine σ α) (s : σ) : List α → Option σ
  | [] => some s
  | a :: as => (M.step s a).bind fun s' => exec M s' as

/-- The same, staying where it is when an action is not enabled. -/
def walk (M : Machine σ α) (s : σ) : List α → σ
  | [] => s
  | a :: as => walk M ((M.step s a).getD s) as

theorem step_of_exec {s : σ} {as : List α} (h : (M.exec s as).isSome) :
    ∀ i (hi : i < as.length),
      M.step (M.walk s (as.take i)) as[i] = some (M.walk s (as.take (i + 1))) := by
  induction as generalizing s with
  | nil => intro i hi; exact absurd hi (by simp)
  | cons a as ih =>
    cases hs : M.step s a with
    | none => simp [exec, hs] at h
    | some s' =>
      intro i hi
      cases i with
      | zero => simp [walk, hs]
      | succ i =>
        have hr := ih (by simpa [exec, hs] using h) i (by simpa using hi)
        simpa [walk, hs] using hr

theorem exec_append (s : σ) (as bs : List α) :
    M.exec s (as ++ bs) = (M.exec s as).bind fun s' => M.exec s' bs := by
  induction as generalizing s with
  | nil => rfl
  | cons a as ih =>
    cases hs : M.step s a with
    | none => simp [exec, hs]
    | some s' => simp [exec, hs, ih]

theorem walk_of_exec {s s' : σ} {as : List α} (h : M.exec s as = some s') (bs : List α) :
    M.walk s (as ++ bs) = M.walk s' bs := by
  induction as generalizing s with
  | nil =>
    cases h
    rfl
  | cons a as ih =>
    cases hs : M.step s a with
    | none => simp [exec, hs] at h
    | some s₁ =>
      have hrest := ih (by simpa [exec, hs] using h)
      simpa [walk, hs] using hrest

/-- The run that a list of enabled actions takes. -/
def Run.ofActs (M : Machine σ α) [Inhabited α] (s : σ) (as : List α) (hi : M.init s)
    (h : (M.exec s as).isSome) : M.Run where
  len := as.length
  state i := M.walk s (as.take i)
  act i := as.getD i default
  start := by simpa [walk] using hi
  next i hi := by
    have hs := step_of_exec h i hi
    simpa [List.getD_eq_getElem?_getD, List.getElem?_eq_getElem hi] using hs

/-- A run through a given state. -/
theorem Run.exists_through [Inhabited α] {s₀ s : σ} {as bs : List α} (hi : M.init s₀)
    (has : M.exec s₀ as = some s) (hbs : (M.exec s bs).isSome) :
    ∃ r : M.Run, r.len = as.length + bs.length ∧
      (∀ k, r.state (as.length + k) = M.walk s (bs.take k)) ∧
      (∀ k, r.act (as.length + k) = bs.getD k default) ∧ ∀ i < r.len, r.act i ∈ as ++ bs := by
  have henabled : (M.exec s₀ (as ++ bs)).isSome := by
    rw [exec_append, has, Option.bind_some]
    exact hbs
  refine ⟨.ofActs M s₀ (as ++ bs) hi henabled, List.length_append, fun k => ?_, fun k => ?_, ?_⟩
  · simp only [ofActs]
    rw [List.take_length_add_append, walk_of_exec has]
  · simp only [ofActs]
    rw [List.getD_append_right _ _ _ _ (Nat.le_add_right ..), Nat.add_sub_cancel_left]
  · intro i hi
    have hlt : i < (as ++ bs).length := hi
    simp only [ofActs, List.getD_eq_getElem?_getD, List.getElem?_eq_getElem hlt, Option.getD_some]
    exact List.getElem_mem hlt

end Machine

end ObjectCache.Lib
