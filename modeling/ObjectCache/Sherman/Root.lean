import ObjectCache.Btree.Slots
import Mathlib

/-! `ShermanRoot`: pointers below the root of the tree, each with a range of keys. -/

namespace ObjectCache.Sherman.ShermanRoot

open Btree

structure RootEntry (B : Type) where
  present : Bool
  ptr : Option B
  key_low : Key
  key_high : Key

variable {B : Type}

namespace RootEntry

/-- `ptrs[i].key_low <= key && key < ptrs[i].key_high` -/
def covers (e : RootEntry B) (key : Key) : Bool := e.key_low ≤ key && key < e.key_high

/-- The keys between the fences of the node. -/
def keys (e : RootEntry B) : Set Key := Set.Ioc e.key_low e.key_high

def drop (e : RootEntry B) : RootEntry B := { e with present := false }

end RootEntry

def findPtr : List (RootEntry B) → Key → Option B
  | [], _ => none
  | e :: ptrs, key =>
    if !e.present then findPtr ptrs key
    else if e.covers key then e.ptr
    else findPtr ptrs key

def putIntoCache (key_low key_high : Key) (ptr : Option B) :
    List (RootEntry B) → Bool × List (RootEntry B)
  | [] => (false, [])
  | e :: ptrs =>
    if e.present then
      let (b, ptrs) := putIntoCache key_low key_high ptr ptrs
      (b, e :: ptrs)
    else (true, ⟨true, ptr, key_low, key_high⟩ :: ptrs)

def invalidate (ptrs : List (RootEntry B)) (key : Key) : List (RootEntry B) :=
  ptrs.map fun e => if e.present && e.covers key then e.drop else e

/-- The arguments of `put_into_cache`. -/
structure Put (B : Type) where
  key_low : Key
  key_high : Key
  ptr : Option B

/-- The root after some calls of `put_into_cache`. -/
def fill (ptrs : List (RootEntry B)) (puts : List (Put B)) : List (RootEntry B) :=
  puts.foldl (fun ptrs p => (putIntoCache p.key_low p.key_high p.ptr ptrs).2) ptrs

/-- Present entries have disjoint ranges. -/
def Apart (ptrs : List (RootEntry B)) : Prop :=
  ptrs.Pairwise fun e f => e.present = true → f.present = true → Disjoint e.keys f.keys

lemma mem_putIntoCache {key_low key_high : Key} {ptr : Option B} {ptrs : List (RootEntry B)} {e : RootEntry B}
    (h : e ∈ (putIntoCache key_low key_high ptr ptrs).2) :
    e ∈ ptrs ∨ e = ⟨true, ptr, key_low, key_high⟩ := by
  induction ptrs with
  | nil => cases h
  | cons f ptrs ih =>
    by_cases hf : f.present
    · simp only [putIntoCache, if_pos hf] at h
      rcases List.mem_cons.mp h with rfl | h
      · exact .inl List.mem_cons_self
      · exact (ih h).imp_left (List.mem_cons_of_mem _)
    · simp only [putIntoCache, if_neg hf] at h
      rcases List.mem_cons.mp h with rfl | h
      · exact .inr rfl
      · exact .inl (List.mem_cons_of_mem _ h)

lemma Apart.put {key_low key_high : Key} {ptr : Option B} {ptrs : List (RootEntry B)} (h : Apart ptrs)
    (hnew : ∀ e ∈ ptrs, e.present = true → Disjoint e.keys (Set.Ioc key_low key_high)) :
    Apart (putIntoCache key_low key_high ptr ptrs).2 := by
  induction ptrs with
  | nil => exact List.Pairwise.nil
  | cons f ptrs ih =>
    obtain ⟨hf, hrest⟩ := List.pairwise_cons.mp h
    have hnew' : ∀ e ∈ ptrs, e.present = true → Disjoint e.keys (Set.Ioc key_low key_high) :=
      fun e he => hnew e (List.mem_cons_of_mem _ he)
    by_cases hp : f.present
    · simp only [putIntoCache, if_pos hp]
      refine List.pairwise_cons.mpr ⟨fun e he hfp hep => ?_, ih hrest hnew'⟩
      rcases mem_putIntoCache he with he | rfl
      · exact hf e he hfp hep
      · exact hnew f List.mem_cons_self hfp
    · simp only [putIntoCache, if_neg hp]
      refine List.pairwise_cons.mpr ⟨fun e he _ hep => ?_, hrest⟩
      exact (hnew' e he hep).symm

/-- The entries of a filled root are those that were put in. -/
lemma fill_apart {ptrs : List (RootEntry B)} {puts : List (Put B)} (h : Apart ptrs)
    (hputs : puts.Pairwise fun p q => Disjoint (Set.Ioc p.key_low p.key_high) (Set.Ioc q.key_low q.key_high))
    (hnew : ∀ p ∈ puts, ∀ e ∈ ptrs, e.present = true →
      Disjoint e.keys (Set.Ioc p.key_low p.key_high)) : Apart (fill ptrs puts) := by
  induction puts generalizing ptrs with
  | nil => exact h
  | cons p puts ih =>
    obtain ⟨hp, hrest⟩ := List.pairwise_cons.mp hputs
    apply ih
    · exact h.put (hnew p List.mem_cons_self)
    · exact hrest
    · intro q hq e he hpresent
      rcases mem_putIntoCache he with he | rfl
      · exact hnew q (List.mem_cons_of_mem _ hq) e he hpresent
      · exact hp q hq

/-- No other present entry covers a key inside the range of an entry. -/
lemma not_covers {e f : RootEntry B} {k : Key} (h : Disjoint e.keys f.keys) (hlow : e.key_low < k)
    (hhigh : k < e.key_high) : f.covers k = false := by
  rw [RootEntry.covers, Bool.and_eq_false_iff, decide_eq_false_iff_not, decide_eq_false_iff_not]
  by_contra hboth
  push Not at hboth
  obtain ⟨hlow', hhigh'⟩ := hboth
  have he : k + 1 ∈ e.keys := ⟨hlow.trans (Int.lt_succ k), Int.add_one_le_iff.mpr hhigh⟩
  have hf : k + 1 ∈ f.keys := ⟨Int.lt_add_one_of_le hlow', Int.add_one_le_iff.mpr hhigh'⟩
  exact Set.disjoint_left.mp h he hf

lemma findPtr_of_first {ptrs : List (RootEntry B)} {i : ℕ} {e : RootEntry B} {k : Key}
    (hi : ptrs[i]? = some e) (hp : e.present = true) (hc : e.covers k = true)
    (hothers : ∀ j f, ptrs[j]? = some f → j ≠ i → f.present = true → f.covers k = false) :
    findPtr ptrs k = e.ptr := by
  induction ptrs generalizing i with
  | nil => simp at hi
  | cons f ptrs ih =>
    cases i with
    | zero =>
      simp only [List.getElem?_cons_zero, Option.some.injEq] at hi
      subst hi
      simp [findPtr, hp, hc]
    | succ i =>
      have hrest : findPtr ptrs k = e.ptr := by
        apply ih (i := i) (by simpa using hi)
        intro j g hj hne
        exact hothers (j + 1) g (by simpa using hj) (by omega)
      cases hf : f.present with
      | false => simp [findPtr, hf, hrest]
      | true =>
        have hnot := hothers 0 f (by simp) (by omega) hf
        simp [findPtr, hf, hnot, hrest]

/-- An entry loses its place only where it is present and covers the key. -/
lemma getElem?_invalidate {ptrs : List (RootEntry B)} {k : Key} (i : ℕ) :
    (invalidate ptrs k)[i]? =
      (ptrs[i]?).map fun e => if e.present && e.covers k then e.drop else e := by
  simp [invalidate]

lemma invalidate_eq_set {ptrs : List (RootEntry B)} {i : ℕ} {e : RootEntry B} {k : Key}
    (hi : ptrs[i]? = some e) (hp : e.present = true) (hc : e.covers k = true)
    (hothers : ∀ j f, ptrs[j]? = some f → j ≠ i → f.present = true → f.covers k = false) :
    invalidate ptrs k = ptrs.set i e.drop := by
  apply List.ext_getElem?
  intro j
  rw [getElem?_invalidate, List.getElem?_set]
  by_cases hj : i = j
  · subst hj
    have hlt : i < ptrs.length := (List.getElem?_eq_some_iff.mp hi).1
    rw [if_pos rfl, if_pos hlt, hi, Option.map_some, hp, hc]
    rfl
  · rw [if_neg hj]
    cases hf : ptrs[j]? with
    | none => rfl
    | some f =>
      cases hfp : f.present with
      | false => simp [hfp]
      | true => simp [hfp, hothers j f hf (fun he => hj he.symm) hfp]

/-- `find_ptr` returns the entry's pointer and `invalidate` drops the entry and no other. -/
def Serves (ptrs : List (RootEntry B)) (i : ℕ) (e : RootEntry B) (k : Key) : Prop :=
  findPtr ptrs k = e.ptr ∧ invalidate ptrs k = ptrs.set i e.drop

/-- The root leaves out the upper end of every range. -/
lemma Apart.serves_iff {ptrs : List (RootEntry B)} (h : Apart ptrs) {i : ℕ} {e : RootEntry B} {k : Key}
    (hi : ptrs[i]? = some e) (hp : e.present = true) (hlow : e.key_low < k) :
    Serves ptrs i e k ↔ k < e.key_high := by
  constructor
  · rintro ⟨-, hset⟩
    by_contra hnot
    have hat := congrArg (·[i]?) hset
    have hlt : i < ptrs.length := (List.getElem?_eq_some_iff.mp hi).1
    have hno : e.covers k = false := by
      simp [RootEntry.covers, not_lt.mp hnot]
    simp only [getElem?_invalidate, hi, hno, List.getElem?_set_self hlt, Option.map_some,
      Bool.and_false, Option.some.injEq] at hat
    have hdrop := congrArg RootEntry.present hat
    simp [RootEntry.drop, hp] at hdrop
  · intro hlt
    have hc : e.covers k = true := by
      simp [RootEntry.covers, hlow.le, hlt]
    have hothers : ∀ j f, ptrs[j]? = some f → j ≠ i → f.present = true → f.covers k = false := by
      intro j f hj hne hf
      obtain ⟨hil, hie⟩ := List.getElem?_eq_some_iff.mp hi
      obtain ⟨hjl, hje⟩ := List.getElem?_eq_some_iff.mp hj
      rcases Nat.lt_or_gt_of_ne hne with hlt' | hlt'
      · have hd := List.pairwise_iff_getElem.mp h j i hjl hil hlt'
        rw [hie, hje] at hd
        exact not_covers (hd hf hp).symm hlow hlt
      · have hd := List.pairwise_iff_getElem.mp h i j hil hjl hlt'
        rw [hie, hje] at hd
        exact not_covers (hd hp hf) hlow hlt
    exact ⟨findPtr_of_first hi hp hc hothers, invalidate_eq_set hi hp hc hothers⟩

/-- A root as the constructor leaves it. -/
def Vacant (ptrs : List (RootEntry B)) : Prop := ∀ e ∈ ptrs, e.present = false

lemma Vacant.apart {ptrs : List (RootEntry B)} (h : Vacant ptrs) : Apart ptrs := by
  refine List.Pairwise.imp_of_mem (R := fun _ _ => True) ?_ (List.pairwise_of_forall fun _ _ => trivial)
  intro e f he _ _ hep
  rw [h e he] at hep
  cases hep

end ObjectCache.Sherman.ShermanRoot
