import ObjectCache.Lib.FiniteMap
import ObjectCache.Lib.Linearizable
import Mathlib.Data.Set.Card

/-! The finite map as an object of concurrent calls, and its size as the balance of its updates. -/

set_option linter.unusedSectionVars false

namespace ObjectCache.Lib

variable {T K V : Type*} [DecidableEq K]

/-- The map as an object that answers each call with what it held at the key. -/
def mapObject (K V : Type*) [DecidableEq K] : Object (K → Option V) (MapOp K V) (Option V) where
  init _ := none
  apply m op := (op.apply m, m op.key)

namespace MapOp

/-- A call that added a key. -/
def Adds : MapOp K V → Option V → Prop
  | .insert _ _, none => True
  | _, _ => False

/-- A call that deleted a key. -/
def Deletes : MapOp K V → Option V → Prop
  | .remove _, some _ => True
  | _, _ => False

end MapOp

/-- The calls of a history that returned, and whose answer tells this of them. -/
def History.tally (h : History T (MapOp K V) (Option V)) (p : MapOp K V → Option V → Prop) : Set ℕ :=
  {i | ∃ t op j r, h[i]? = some (.call t op) ∧ h.Returns i j r ∧ p op r}

def support (m : K → Option V) : Set K := {k | m k ≠ none}

open Classical in
lemma ncard_tally {h : History T (MapOp K V) (Option V)} {L : List (Commit (MapOp K V) (Option V))}
    {m : K → Option V} (hl : Linearization (mapObject K V) h L m)
    (hc : ∀ c ∈ L, ∃ j, h.Returns c.call j c.ret) (p : MapOp K V → Option V → Prop) :
    (h.tally p).ncard = L.countP fun c => p c.op c.ret := by
  have hset : h.tally p = ((L.filter fun c => p c.op c.ret).map Commit.call).toFinset := by
    ext i
    simp only [History.tally, Set.mem_ofPred_eq, List.coe_toFinset, List.mem_map, List.mem_filter,
      decide_eq_true_eq]
    constructor
    · rintro ⟨t, op, j, r, hi, hr, hp⟩
      obtain ⟨c, hcL, rfl, rfl⟩ := hl.returned hr
      obtain ⟨u, hu⟩ := hl.called c hcL
      rw [hi] at hu
      cases hu
      exact ⟨c, ⟨hcL, hp⟩, rfl⟩
    · rintro ⟨c, ⟨hcL, hp⟩, rfl⟩
      obtain ⟨t, ht⟩ := hl.called c hcL
      obtain ⟨j, hj⟩ := hc c hcL
      exact ⟨t, c.op, j, c.ret, ht, hj, hp⟩
  have hnodup : ((L.filter fun c => p c.op c.ret).map Commit.call).Nodup :=
    hl.nodup.sublist (List.filter_sublist.map _)
  rw [hset, Set.ncard_coe_finset, List.toFinset_card_of_nodup hnodup, List.length_map,
    List.countP_eq_length_filter]

lemma support_update_some (m : K → Option V) (k : K) (v : V) :
    support (Function.update m k (some v)) = insert k (support m) := by
  ext k'
  by_cases hk : k' = k
  · subst hk
    simp [support]
  · simp [support, hk]

lemma support_update_none (m : K → Option V) (k : K) :
    support (Function.update m k none) = support m \ {k} := by
  ext k'
  by_cases hk : k' = k
  · subst hk
    simp [support]
  · simp [support, hk]

open Classical in
/-- Every key in the map was added once more than it was deleted. -/
lemma ncard_support {L : List (Commit (MapOp K V) (Option V))} {m : K → Option V}
    (hl : (mapObject K V).Legal L m) : (support m).Finite ∧
      (support m).ncard + (L.countP fun c => c.op.Deletes c.ret) =
        L.countP fun c => c.op.Adds c.ret := by
  induction hl with
  | nil => simp [support, mapObject]
  | @snoc L m c _ hret ih =>
    obtain ⟨hfin, hcard⟩ := ih
    obtain ⟨i, op, r⟩ := c
    have hr : r = m op.key := hret
    subst hr
    simp only [List.countP_append, List.countP_singleton]
    cases op with
    | insert k v =>
      cases hm : m k with
      | none =>
        have happ : ((mapObject K V).apply m (.insert k v)).1 = Function.update m k (some v) := by
          simp [mapObject, MapOp.apply, hm]
        have hk : k ∉ support m := by simp [support, hm]
        have hsup := support_update_some m k v
        have hnew := Set.ncard_insert_of_notMem hk hfin
        have hadds : (MapOp.insert k v).Adds (m k) := by simp [MapOp.Adds, hm]
        have hdel : ¬ (MapOp.insert k v).Deletes (m k) := by simp [MapOp.Deletes]
        simp only [happ, hsup, MapOp.key, hadds, hdel, hnew, decide_true, decide_false, if_true,
          Bool.false_eq_true, if_false]
        exact ⟨hfin.insert k, by omega⟩
      | some w =>
        have happ : ((mapObject K V).apply m (.insert k v)).1 = m := by
          simp [mapObject, MapOp.apply, hm]
        have hadds : ¬ (MapOp.insert k v).Adds (m k) := by simp [MapOp.Adds, hm]
        have hdel : ¬ (MapOp.insert k v).Deletes (m k) := by simp [MapOp.Deletes]
        simp only [happ, MapOp.key, hadds, hdel, decide_false, Bool.false_eq_true, if_false]
        exact ⟨hfin, hcard⟩
    | remove k =>
      have happ : ((mapObject K V).apply m (.remove k)).1 = Function.update m k none := rfl
      have hadds : ¬ (MapOp.remove k : MapOp K V).Adds (m k) := by simp [MapOp.Adds]
      have hsup := support_update_none m k
      simp only [happ, hsup, MapOp.key, hadds, decide_false, Bool.false_eq_true, if_false]
      refine ⟨hfin.sdiff, ?_⟩
      by_cases hm : m k = none
      · have hk : k ∉ support m := by simp [support, hm]
        have hdel : ¬ (MapOp.remove k : MapOp K V).Deletes (m k) := by simp [MapOp.Deletes, hm]
        simp only [hdel, Set.sdiff_singleton_eq_self hk, decide_false, Bool.false_eq_true, if_false]
        exact hcard
      · obtain ⟨w, hw⟩ := Option.ne_none_iff_exists'.mp hm
        have hk : k ∈ support m := hm
        have hdel : (MapOp.remove k : MapOp K V).Deletes (m k) := by simp [MapOp.Deletes, hw]
        have hold := Set.ncard_sdiff_singleton_add_one hk hfin
        simp only [hdel, decide_true, if_true]
        omega
    | contains k =>
      have happ : ((mapObject K V).apply m (.contains k)).1 = m := rfl
      have hadds : ¬ (MapOp.contains k : MapOp K V).Adds (m k) := by simp [MapOp.Adds]
      have hdel : ¬ (MapOp.contains k : MapOp K V).Deletes (m k) := by simp [MapOp.Deletes]
      simp only [happ, MapOp.key, hadds, hdel, decide_false, Bool.false_eq_true, if_false]
      exact ⟨hfin, hcard⟩

/-- With no call in progress the size of the map is the number of calls that added a key less the
number of those that deleted one. -/
theorem Atomic.Run.ncard_support [DecidableEq T] {h : History T (MapOp K V) (Option V)}
    {a : Atomic (K → Option V) T (MapOp K V) (Option V)} (hr : Atomic.Run (mapObject K V) h a)
    (hidle : ∀ t, a.status t = .idle) :
    (support a.state).Finite ∧
      (support a.state).ncard + (h.tally MapOp.Deletes).ncard = (h.tally MapOp.Adds).ncard := by
  obtain ⟨L, hl, hc⟩ := hr.complete hidle
  rw [ncard_tally hl hc, ncard_tally hl hc]
  exact Lib.ncard_support hl.legal

end ObjectCache.Lib
