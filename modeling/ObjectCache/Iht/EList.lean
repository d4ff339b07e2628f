import Mathlib.Data.List.Nodup
import Mathlib.Data.List.Perm.Basic
import Mathlib.Tactic.Common

/-! The live pairs of an EList: search from the front, insertion behind the last pair, removal by
moving the last pair into the gap. -/

set_option linter.unusedSectionVars false

namespace ObjectCache.Iht

variable {K V : Type} [DecidableEq K]

abbrev EList (K V : Type) := List (K × V)

namespace EList

/-- The linear search: the first index with this key. -/
def indexOf (e : EList K V) (k : K) : Option ℕ := e.findIdx? fun kv => kv.1 = k

def lookup (e : EList K V) (k : K) : Option V := (e.find? fun kv => kv.1 = k).map Prod.snd

def elist_insert (e : EList K V) (k : K) (v : V) : EList K V := e ++ [(k, v)]

/-- `pairs[i] = pairs[count - 1]; count -= 1`. -/
def takeOut (e : EList K V) (i : ℕ) : EList K V :=
  match e.getLast? with
  | some last => (e.set i last).dropLast
  | none => e

def remove (e : EList K V) (k : K) : EList K V :=
  match e.indexOf k with
  | some i => e.takeOut i
  | none => e

variable {e : EList K V} {k : K} {v : V}

lemma mem_of_lookup (h : e.lookup k = some v) : (k, v) ∈ e := by
  obtain ⟨kv, hf, rfl⟩ := Option.map_eq_some_iff.mp h
  have hk := List.find?_some hf
  rw [decide_eq_true_iff] at hk
  rw [← hk]
  exact List.mem_of_find?_eq_some hf

lemma lookup_eq_none : e.lookup k = none ↔ k ∉ e.map Prod.fst := by
  constructor
  · intro h hk
    obtain ⟨kv, hm, rfl⟩ := List.mem_map.mp hk
    have hf := List.find?_eq_none.mp (Option.map_eq_none_iff.mp h) kv hm
    simp at hf
  · intro hk
    refine Option.map_eq_none_iff.mpr (List.find?_eq_none.mpr fun kv hm => ?_)
    rw [decide_eq_true_iff]
    rintro rfl
    exact hk (List.mem_map_of_mem hm)

lemma lookup_eq_some (hn : (e.map Prod.fst).Nodup) : e.lookup k = some v ↔ (k, v) ∈ e := by
  refine ⟨mem_of_lookup, fun hm => ?_⟩
  cases hl : e.lookup k with
  | none => exact absurd (List.mem_map_of_mem hm) (lookup_eq_none.mp hl)
  | some w =>
    have hw : (k, w) = (k, v) := List.inj_on_of_nodup_map hn (mem_of_lookup hl) hm rfl
    rw [Prod.mk.injEq] at hw
    rw [hw.2]

lemma takeOut_perm (l r : EList K V) (kv : K × V) :
    (EList.takeOut (l ++ kv :: r) l.length).Perm (l ++ r) := by
  rcases List.eq_nil_or_concat r with rfl | ⟨r, last, rfl⟩
  · simp [takeOut]
  · have hlast : (l ++ kv :: (r ++ [last])).getLast? = some last := by
      rw [← List.cons_append, ← List.append_assoc, List.getLast?_concat]
    have hset : (l ++ kv :: (r ++ [last])).set l.length last = (l ++ last :: r) ++ [last] := by simp
    rw [List.concat_eq_append, takeOut, hlast]
    simp only [hset, List.dropLast_concat]
    refine List.Perm.append_left l ?_
    exact (List.perm_append_singleton last r).symm

lemma indexOf_eq_none (hk : k ∉ e.map Prod.fst) : e.indexOf k = none := by
  rw [indexOf, List.findIdx?_eq_none_iff]
  intro kv hkv
  simp only [decide_eq_false_iff_not]
  rintro rfl
  exact hk (List.mem_map_of_mem hkv)

/-- The search stops at the first pair of the key. -/
lemma exists_split (hk : k ∈ e.map Prod.fst) :
    ∃ l v r, e = l ++ (k, v) :: r ∧ e.indexOf k = some l.length := by
  induction e with
  | nil => simp at hk
  | cons kv e ih =>
    by_cases hkv : kv.1 = k
    · refine ⟨[], kv.2, e, by rw [← hkv]; rfl, ?_⟩
      simp [indexOf, List.findIdx?_cons, hkv]
    · have hk' : k ∈ e.map Prod.fst := by
        rcases List.mem_cons.mp hk with h | h
        · exact absurd h.symm hkv
        · exact h
      obtain ⟨l, v, r, rfl, hi⟩ := ih hk'
      refine ⟨kv :: l, v, r, rfl, ?_⟩
      rw [indexOf] at hi
      simp [indexOf, List.findIdx?_cons, hkv, hi]

lemma remove_perm (hk : k ∈ e.map Prod.fst) :
    ∃ l v r, e = l ++ (k, v) :: r ∧ (e.remove k).Perm (l ++ r) := by
  obtain ⟨l, v, r, rfl, hi⟩ := exists_split hk
  refine ⟨l, v, r, rfl, ?_⟩
  rw [remove, hi]
  exact takeOut_perm l r (k, v)

lemma mem_remove (hn : (e.map Prod.fst).Nodup) (k' : K) (v' : V) :
    (k', v') ∈ e.remove k ↔ (k', v') ∈ e ∧ k' ≠ k := by
  by_cases hk : k ∈ e.map Prod.fst
  · obtain ⟨l, v, r, rfl, hp⟩ := remove_perm hk
    rw [hp.mem_iff]
    have hk' : k ∉ (l ++ r).map Prod.fst := by
      rw [List.map_append, List.map_cons, List.nodup_middle] at hn
      rw [List.map_append]
      exact (List.nodup_cons.mp hn).1
    constructor
    · intro hm
      refine ⟨?_, ?_⟩
      · simp only [List.mem_append, List.mem_cons] at hm ⊢
        tauto
      · rintro rfl
        exact hk' (List.mem_map_of_mem hm)
    · rintro ⟨hm, hne⟩
      simp only [List.mem_append, List.mem_cons, Prod.mk.injEq] at hm ⊢
      tauto
  · rw [remove, indexOf_eq_none hk]
    refine ⟨fun hm => ⟨hm, ?_⟩, And.left⟩
    rintro rfl
    exact hk (List.mem_map_of_mem hm)

lemma nodup_remove (hn : (e.map Prod.fst).Nodup) : ((e.remove k).map Prod.fst).Nodup := by
  by_cases hk : k ∈ e.map Prod.fst
  · obtain ⟨l, v, r, rfl, hp⟩ := remove_perm hk
    rw [List.map_append, List.map_cons, List.nodup_middle] at hn
    rw [(hp.map Prod.fst).nodup_iff, List.map_append]
    exact (List.nodup_cons.mp hn).2
  · rwa [remove, indexOf_eq_none hk]

lemma nodup_elist_insert (hn : (e.map Prod.fst).Nodup) (hk : e.lookup k = none) :
    ((e.elist_insert k v).map Prod.fst).Nodup := by
  have hk' := lookup_eq_none.mp hk
  rw [elist_insert, List.map_append, List.nodup_append_comm]
  exact List.nodup_cons.mpr ⟨hk', hn⟩

end EList

end ObjectCache.Iht
