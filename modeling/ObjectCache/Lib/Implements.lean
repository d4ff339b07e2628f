import ObjectCache.Lib.MapHistory

/-! Machines each of whose steps is one step of the atomic machine or none, and objects that are divided among
several places. -/

set_option linter.unusedSectionVars false

namespace ObjectCache.Lib

variable {σ T Op Ret S α : Type*} [DecidableEq T]

/-- One step of the atomic machine, or none, with what it shows. -/
inductive Atomic.Moves (O : Object σ Op Ret) (a : Atomic σ T Op Ret) :
    Option (Event T Op Ret) → Atomic σ T Op Ret → Prop
  | hidden : Moves O a none a
  | call {t op} : a.status t = .idle → Moves O a (some (.call t op)) (a.setStatus t (.called op))
  | commit {t op} : a.status t = .called op → Moves O a none
      ({ a with state := (O.apply a.state op).1 }.setStatus t (.done (O.apply a.state op).2))
  | ret {t r} : a.status t = .done r → Moves O a (some (.ret t r)) (a.setStatus t .idle)

/-- Every step of the machine shows and does what one step of the atomic machine does. -/
structure Implements (M : Machine S α) (O : Object σ Op Ret) (obs : S → α → Option (Event T Op Ret))
    (R : S → Atomic σ T Op Ret → Prop) : Prop where
  init : ∀ s, M.init s → R s ⟨O.init, fun _ => .idle⟩
  step : ∀ s x s' a, R s a → M.step s x = some s' → ∃ a', a.Moves O (obs s x) a' ∧ R s' a'

variable {M : Machine S α} {O : Object σ Op Ret} {obs : S → α → Option (Event T Op Ret)}
  {R : S → Atomic σ T Op Ret → Prop} {a a' : Atomic σ T Op Ret} {e : Option (Event T Op Ret)}
  {h : History T Op Ret}

lemma Atomic.Run.moves (hr : Run O h a) (hm : a.Moves O e a') : Run O (h ++ e.toList) a' := by
  cases hm with
  | hidden =>
    rw [Option.toList_none, List.append_nil]
    exact hr
  | call ht => exact .call hr ht
  | commit ht =>
    rw [Option.toList_none, List.append_nil]
    exact .commit hr ht
  | ret ht => exact .ret hr ht

theorem Implements.simulates (hi : Implements M O obs R) : Simulates M O obs R where
  init := hi.init
  step s x s' a h hr hrun hs := by
    obtain ⟨a', hm, hr'⟩ := hi.step s x s' a hr hs
    exact ⟨a', hrun.moves hm, hr'⟩

/-! ### Machines whose steps all meet a condition -/

section Only

variable {p : S → α → Bool}

def Machine.only (M : Machine S α) (p : S → α → Bool) : Machine S α where
  init := M.init
  step s x := if p s x then M.step s x else none

/-- The first `n` steps of a run, as long as they all meet the condition. -/
def Machine.Run.only (r : M.Run) (n : ℕ) (hn : n ≤ r.len) (hp : ∀ i < n, p (r.state i) (r.act i)) :
    (M.only p).Run where
  len := n
  state := r.state
  act := r.act
  start := r.start
  next i hi := (if_pos (hp i hi)).trans (r.next i (Nat.lt_of_lt_of_le hi hn))

lemma Machine.Run.only_history (r : M.Run) (n : ℕ) (hn : n ≤ r.len)
    (hp : ∀ i < n, p (r.state i) (r.act i)) (i : ℕ) : (r.only n hn hp).history obs i = r.history obs i := by
  induction i with
  | zero => rfl
  | succ i ih =>
    rw [history, history, ih]
    rfl

theorem Implements.linearizable_only (hi : Implements (M.only p) O obs R) (r : M.Run) {n : ℕ} (hn : n ≤ r.len)
    (hp : ∀ i < n, p (r.state i) (r.act i)) : Linearizable O (r.history obs n) := by
  rw [← r.only_history n hn hp]
  exact hi.simulates.linearizable _ (Nat.le_refl n)

end Only

/-! ### Divided objects -/

section Divided

variable {ι τ : Type*} [DecidableEq ι]

/-- An object at every place, and each call to the place that it belongs to. -/
def Object.divided (O : Object σ Op Ret) (place : Op → ι) : Object (ι → σ) Op Ret where
  init _ := O.init
  apply f op := (Function.update f (place op) (O.apply (f (place op)) op).1, (O.apply (f (place op)) op).2)

/-- A reading of the states of one object as states of another. -/
structure Object.Reads (O : Object σ Op Ret) (P : Object τ Op Ret) (read : σ → τ) : Prop where
  init : read O.init = P.init
  state : ∀ s op, read (O.apply s op).1 = (P.apply (read s) op).1
  answer : ∀ s op, (O.apply s op).2 = (P.apply (read s) op).2

lemma Object.Legal.reads {P : Object τ Op Ret} {read : σ → τ} (hr : O.Reads P read)
    {L : List (Commit Op Ret)} {s : σ} (hl : O.Legal L s) : P.Legal L (read s) := by
  induction hl with
  | nil =>
    rw [hr.init]
    exact .nil
  | snoc _ hret ih =>
    rw [hr.state]
    apply ih.snoc
    rw [hret, hr.answer]

theorem Linearizable.reads {P : Object τ Op Ret} {read : σ → τ} (hr : O.Reads P read)
    (hl : Linearizable O h) : Linearizable P h := by
  obtain ⟨L, s, hl⟩ := hl
  exact ⟨L, read s, hl.legal.reads hr, hl.called, hl.nodup, hl.returned, hl.order⟩

section Maps

variable {K V : Type*} [DecidableEq K] {m m' : K → Option V} {op : MapOp K V} {k : K}

lemma MapOp.apply_other (hk : k ≠ op.key) : op.apply m k = m k := by
  cases op with
  | insert k' v =>
    rw [apply]
    split_ifs
    · exact Function.update_of_ne hk _ _
    · rfl
  | remove k' => exact Function.update_of_ne hk _ _
  | contains k' => rfl

lemma MapOp.apply_congr (hm : m op.key = m' op.key) : op.apply m op.key = op.apply m' op.key := by
  cases op with
  | insert k v =>
    have hsame : m k = m' k := hm
    simp only [apply, key, hsame]
    split_ifs
    · rw [Function.update_self, Function.update_self]
    · exact hm
  | remove k =>
    simp only [apply, key, Function.update_self]
  | contains k => exact hm

/-- Maps that share the keys out among them are one map. -/
lemma mapObject_divided_reads (at_key : K → ι) :
    ((mapObject K V).divided fun op => at_key op.key).Reads (mapObject K V) fun f k => f (at_key k) k where
  init := rfl
  state f op := by
    funext k
    simp only [Object.divided, mapObject]
    by_cases hk : k = op.key
    · subst hk
      rw [Function.update_self]
      exact MapOp.apply_congr rfl
    · rw [MapOp.apply_other hk]
      by_cases hplace : at_key k = at_key op.key
      · rw [hplace, Function.update_self, MapOp.apply_other hk]
      · rw [Function.update_of_ne hplace]
  answer f op := rfl

end Maps

end Divided

end ObjectCache.Lib
