import ObjectCache.Lib.Linearizable
import ObjectCache.Lib.MapHistory
import Mathlib.Algebra.BigOperators.Group.List.Basic
import Mathlib.Algebra.Group.Int.Defs

/-! What the returned calls of every thread add up to, and how the object's state follows from it. -/

set_option linter.unusedSectionVars false

namespace ObjectCache.Lib

/-- The call that each thread has in progress, and the total of those that have returned to it. -/
structure Account (T Op : Type*) where
  opens : T → Option Op
  net : T → ℤ

variable {σ T Op Ret : Type*} [DecidableEq T]

def Account.enter (w : Op → Ret → ℤ) (x : Account T Op) : Event T Op Ret → Account T Op
  | .call t op => { x with opens := Function.update x.opens t (some op) }
  | .ret t r => ⟨Function.update x.opens t none,
      Function.update x.net t (x.net t + (x.opens t).elim 0 (w · r))⟩

def History.account (w : Op → Ret → ℤ) (h : History T Op Ret) : Account T Op :=
  h.foldl (Account.enter w) ⟨fun _ => none, fun _ => 0⟩

/-- What a call will add that has taken effect and not yet returned. -/
def due (w : Op → Ret → ℤ) : Option Op → Status Op Ret → ℤ
  | some op, .done r => w op r
  | _, _ => 0

variable {O : Object σ Op Ret} {h : History T Op Ret} {a : Atomic σ T Op Ret} {w : Op → Ret → ℤ} {t : T}
  {op : Op} {r : Ret} {P : σ → Prop} {Q : Op → Prop} {R : Op → Ret → Prop} {μ : σ → ℤ} {ts : List T}

lemma account_concat (e : Event T Op Ret) : (h ++ [e]).account w = (h.account w).enter w e := by
  simp [History.account]

lemma account_call : (h ++ [Event.call t op]).account w =
    { h.account w with opens := Function.update (h.account w).opens t (some op) } :=
  account_concat _

lemma account_ret : (h ++ [Event.ret t r]).account w = ⟨Function.update (h.account w).opens t none,
    Function.update (h.account w).net t
      ((h.account w).net t + ((h.account w).opens t).elim 0 (w · r))⟩ :=
  account_concat _

/-- Two sums whose terms differ at one place. -/
lemma sum_map_of_ne {f g : T → ℤ} (hn : ts.Nodup) (ht : t ∈ ts) (hfg : ∀ u, u ≠ t → g u = f u) :
    (ts.map g).sum = (ts.map f).sum + (g t - f t) := by
  induction ts with
  | nil => cases ht
  | cons u ts ih =>
    obtain ⟨hu, hn⟩ := List.nodup_cons.mp hn
    simp only [List.map_cons, List.sum_cons]
    rcases List.mem_cons.mp ht with rfl | ht
    · have hrest : ts.map g = ts.map f := List.map_congr_left fun v hv => hfg v (by
        rintro rfl
        exact hu hv)
      rw [hrest]
      omega
    · rw [ih hn ht, hfg u (by
        rintro rfl
        exact hu ht)]
      omega

/-- `Q` is true of every call; the object then keeps `P`, answers with `R`, and adds to `μ` what the call
weighs. -/
structure Object.Weighs (O : Object σ Op Ret) (P : σ → Prop) (Q : Op → Prop) (R : Op → Ret → Prop)
    (w : Op → Ret → ℤ) (μ : σ → ℤ) : Prop where
  init : P O.init
  zero : μ O.init = 0
  keeps : ∀ {s op}, P s → Q op → P (O.apply s op).1
  answers : ∀ {s op}, P s → Q op → R op (O.apply s op).2
  adds : ∀ {s op}, P s → Q op → μ (O.apply s op).1 = μ s + w op (O.apply s op).2

/-- Where every thread stands in its account. -/
structure Atomic.Settles (a : Atomic σ T Op Ret) (P : σ → Prop) (Q : Op → Prop) (R : Op → Ret → Prop)
    (w : Op → Ret → ℤ) (μ : σ → ℤ) (ts : List T) (x : Account T Op) : Prop where
  state : P a.state
  called : ∀ {t op}, a.status t = .called op → x.opens t = some op ∧ t ∈ ts ∧ Q op
  done : ∀ {t r}, a.status t = .done r → ∃ op, x.opens t = some op ∧ t ∈ ts ∧ R op r
  total : μ a.state = (ts.map fun t => x.net t + due w (x.opens t) (a.status t)).sum

namespace Atomic

/-- A history whose calls all satisfy `Q` and are made by the threads of the list. -/
theorem Run.settles (hO : O.Weighs P Q R w μ) (hn : ts.Nodup) (hr : Run O h a)
    (hq : ∀ t op, Event.call t op ∈ h → t ∈ ts ∧ Q op) : a.Settles P Q R w μ ts (h.account w) := by
  induction hr with
  | init =>
    refine ⟨hO.init, ?_, ?_, ?_⟩
    · intro t op ht
      cases ht
    · intro t r ht
      cases ht
    · rw [hO.zero, eq_comm]
      apply List.sum_eq_zero
      simp [due, History.account]
  | @call h a t op hr hidle ih =>
    have hi := ih fun u op' hu => hq u op' (List.mem_append_left _ hu)
    obtain ⟨ht, hop⟩ := hq t op (List.mem_append_right _ List.mem_cons_self)
    rw [account_call]
    refine ⟨hi.state, ?_, ?_, ?_⟩
    · intro u op' hu
      by_cases hut : u = t
      · subst hut
        rw [setStatus_self] at hu
        cases hu
        exact ⟨Function.update_self .., ht, hop⟩
      · rw [setStatus_other hut] at hu
        simp only [Function.update_of_ne hut]
        exact hi.called hu
    · intro u r hu
      by_cases hut : u = t
      · subst hut
        rw [setStatus_self] at hu
        cases hu
      · rw [setStatus_other hut] at hu
        simp only [Function.update_of_ne hut]
        exact hi.done hu
    · have hsame : ∀ u, due w (Function.update (h.account w).opens t (some op) u)
          ((a.setStatus t (.called op)).status u) = due w ((h.account w).opens u) (a.status u) := by
        intro u
        by_cases hut : u = t
        · subst hut
          rw [setStatus_self, hidle, Function.update_self]
          simp [due]
        · rw [setStatus_other hut, Function.update_of_ne hut]
      simp only [hsame]
      exact hi.total
  | @commit h a t op hr hcalled ih =>
    have hi := ih hq
    obtain ⟨hopen, ht, hop⟩ := hi.called hcalled
    refine ⟨hO.keeps hi.state hop, ?_, ?_, ?_⟩
    · intro u op' hu
      by_cases hut : u = t
      · subst hut
        rw [setStatus_self] at hu
        cases hu
      · rw [setStatus_other hut] at hu
        exact hi.called hu
    · intro u r hu
      by_cases hut : u = t
      · subst hut
        rw [setStatus_self] at hu
        cases hu
        exact ⟨op, hopen, ht, hO.answers hi.state hop⟩
      · rw [setStatus_other hut] at hu
        exact hi.done hu
    · rw [sum_map_of_ne hn ht (f := fun u => (h.account w).net u + due w ((h.account w).opens u) (a.status u))]
      · rw [← hi.total]
        simp only [setStatus_self, hopen, hcalled, due]
        have hadds := hO.adds hi.state hop
        change μ (O.apply a.state op).1 = _
        omega
      · intro u hut
        rw [setStatus_other hut]
  | @ret h a t r hr hdone ih =>
    have hi := ih fun u op' hu => hq u op' (List.mem_append_left _ hu)
    obtain ⟨op, hopen, ht, -⟩ := hi.done hdone
    rw [account_ret]
    refine ⟨hi.state, ?_, ?_, ?_⟩
    · intro u op' hu
      by_cases hut : u = t
      · subst hut
        rw [setStatus_self] at hu
        cases hu
      · rw [setStatus_other hut] at hu
        simp only [Function.update_of_ne hut]
        exact hi.called hu
    · intro u r' hu
      by_cases hut : u = t
      · subst hut
        rw [setStatus_self] at hu
        cases hu
      · rw [setStatus_other hut] at hu
        simp only [Function.update_of_ne hut]
        exact hi.done hu
    · have hsame : ∀ u, Function.update (h.account w).net t
          ((h.account w).net t + ((h.account w).opens t).elim 0 (w · r)) u +
            due w (Function.update (h.account w).opens t none u) ((a.setStatus t .idle).status u) =
          (h.account w).net u + due w ((h.account w).opens u) (a.status u) := by
        intro u
        by_cases hut : u = t
        · subst hut
          simp [setStatus_self, hopen, hdone, due]
        · rw [setStatus_other hut, Function.update_of_ne hut, Function.update_of_ne hut]
      simp only [hsame]
      exact hi.total

end Atomic

/-! ### The size of a map -/

section Map

variable {K V : Type*} [DecidableEq K]

/-- What a call changes the size by. -/
def MapOp.change : MapOp K V → Option V → ℤ
  | .insert _ _, none => 1
  | .remove _, some _ => -1
  | _, _ => 0

lemma ncard_apply {m : K → Option V} (hm : (support m).Finite) (op : MapOp K V) :
    (support (op.apply m)).Finite ∧
      ((support (op.apply m)).ncard : ℤ) = (support m).ncard + op.change (m op.key) := by
  cases op with
  | insert k v =>
    cases hk : m k with
    | none =>
      have happly : (MapOp.insert k v).apply m = Function.update m k (some v) := by
        simp [MapOp.apply, hk]
      have hnot : k ∉ support m := by simp [support, hk]
      rw [happly, support_update_some, Set.ncard_insert_of_notMem hnot hm]
      refine ⟨hm.insert k, ?_⟩
      simp [MapOp.change, MapOp.key, hk]
    | some v' =>
      have happly : (MapOp.insert k v).apply m = m := by simp [MapOp.apply, hk]
      rw [happly]
      refine ⟨hm, ?_⟩
      simp [MapOp.change, MapOp.key, hk]
  | remove k =>
    have happly : (MapOp.remove k).apply m = Function.update m k none := rfl
    rw [happly, support_update_none]
    refine ⟨hm.sdiff, ?_⟩
    cases hk : m k with
    | none =>
      have hnot : k ∉ support m := by simp [support, hk]
      rw [Set.sdiff_singleton_eq_self hnot]
      simp [MapOp.change, MapOp.key, hk]
    | some v =>
      have hmem : k ∈ support m := by simp [support, hk]
      have hold := Set.ncard_sdiff_singleton_add_one hmem hm
      simp only [MapOp.change, MapOp.key, hk]
      omega
  | contains k =>
    have happly : (MapOp.contains k : MapOp K V).apply m = m := rfl
    rw [happly]
    refine ⟨hm, ?_⟩
    simp [MapOp.change]

/-- The calls insert only pairs of which `S` is true, so every pair of the map and every answer is one. -/
lemma mapObject_weighs (S : K → V → Prop) : (mapObject K V).Weighs
    (fun m => (support m).Finite ∧ ∀ k v, m k = some v → S k v)
    (fun op => ∀ k v, op = .insert k v → S k v) (fun op r => ∀ v, r = some v → S op.key v)
    MapOp.change (fun m => (support m).ncard) where
  init := by
    refine ⟨by simp [support, mapObject], fun k v hk => ?_⟩
    cases hk
  zero := by simp [support, mapObject]
  keeps {m op} hm hop := by
    refine ⟨(ncard_apply hm.1 op).1, fun k v hk => ?_⟩
    change op.apply m k = some v at hk
    cases op with
    | insert k' v' =>
      rw [MapOp.apply] at hk
      split_ifs at hk with hnone
      · by_cases hkk : k = k'
        · subst hkk
          rw [Function.update_self] at hk
          cases hk
          exact hop k v rfl
        · rw [Function.update_of_ne hkk] at hk
          exact hm.2 k v hk
      · exact hm.2 k v hk
    | remove k' =>
      rw [MapOp.apply] at hk
      by_cases hkk : k = k'
      · subst hkk
        rw [Function.update_self] at hk
        cases hk
      · rw [Function.update_of_ne hkk] at hk
        exact hm.2 k v hk
    | contains k' => exact hm.2 k v hk
  answers {m op} hm hop v hv := hm.2 _ v hv
  adds {m op} hm hop := (ncard_apply hm.1 op).2

end Map

end ObjectCache.Lib
