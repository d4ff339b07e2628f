import ObjectCache.LockFree.Entries
import ObjectCache.LockFree.Get
import ObjectCache.Lib.Counting
import Mathlib.Data.Set.Card
import Mathlib.Algebra.BigOperators.Group.Finset.Piecewise

/-! The number of live entries, and the calls that have changed it and not yet returned. -/

set_option linter.unusedSectionVars false

namespace ObjectCache.LockFree

open Lib StateTransition

variable {A V T : Type} [DecidableEq A] [DecidableEq T] {c : Config A} {r r' : Trace c V T} {t : T} {i : ℕ}
  {n : A} {linked : Set A} {m m' : Memory A V} {l l' : Local A V} {spurious : Bool}

/-- The live nodes between the sentinels. -/
def entries (c : Config A) (m : Memory A V) : Set A := {n | Live c m n ∧ n ≠ c.head ∧ n ≠ c.tail}

lemma Shape.mem_entries (h : Shape c linked m) :
    n ∈ entries c m ↔ n ∈ linked ∧ (m.next n 0).marked = false ∧ n ≠ c.head ∧ n ≠ c.tail := by
  constructor
  · rintro ⟨hlive, hends⟩
    exact ⟨hlive.mem h.toLinks, hlive.unmarked, hends⟩
  · rintro ⟨hn, hm, hends⟩
    exact ⟨h.live hn hm, hends⟩

lemma Shape.entries_finite (h : Shape c linked m) : (entries c m).Finite := by
  refine Set.Finite.subset (List.finite_toSet m.allocated) fun n hn => ?_
  exact h.allocated (h.mem_entries.mp hn).1

/-! ### One step -/

/-- A mark is never taken back, and only `marks` sets one. -/
lemma Carries.unmarked_iff (h : Carries r i) (hn : n ∈ r.linked i)
    (hno : marks (r.state i) (r.act i) ≠ some n) :
    ((r.memory (i + 1)).next n 0).marked = false ↔ ((r.memory i).next n 0).marked = false := by
  constructor
  · intro hu
    cases hm : ((r.memory i).next n 0).marked with
    | false => rfl
    | true =>
      rw [h.frozen n hn 0 hm, hm] at hu
      cases hu
  · intro hu
    cases hm : ((r.memory (i + 1)).next n 0).marked with
    | false => rfl
    | true =>
      rcases h.marked n hn hm with hold | hmark
      · rw [hu] at hold
        cases hold
      · exact absurd hmark hno

lemma marks_of_links (h : links (r.state i) (r.act i) = some n) : marks (r.state i) (r.act i) = none := by
  cases ha : r.act i with
  | next t spurious =>
    rw [ha] at h
    cases hpc : ((r.state i).thread t).pc with
    | linkBottom newNode => simp [marks, hpc]
    | _ => simp [links, hpc] at h
  | _ => rfl

lemma entries_same (hi : i < r.len) (hl : links (r.state i) (r.act i) = none)
    (hm : marks (r.state i) (r.act i) = none) :
    entries c (r.memory (i + 1)) = entries c (r.memory i) := by
  have hc := carries_of_run r hi
  ext n
  rw [hc.after.mem_entries, hc.before.mem_entries, linked_succ_none hl]
  refine and_congr_right fun hn => and_congr_left fun _ => ?_
  apply hc.unmarked_iff hn
  rw [hm]
  rintro ⟨⟩

lemma entries_links (hi : i < r.len) (hl : links (r.state i) (r.act i) = some n) :
    n ∉ entries c (r.memory i) ∧ entries c (r.memory (i + 1)) = insert n (entries c (r.memory i)) := by
  have hc := carries_of_run r hi
  obtain ⟨hnew, hunmarked⟩ := (inv_of_run r i hi.le).links_cases (r.next i hi) hl
  have hfresh := hnew.own.not_linked
  refine ⟨fun hn => hfresh (hc.before.mem_entries.mp hn).1, ?_⟩
  ext x
  rw [hc.after.mem_entries, Set.mem_insert_iff, hc.before.mem_entries, linked_succ_some hl, Set.mem_insert_iff]
  by_cases hx : x = n
  · subst hx
    refine iff_of_true ⟨.inl rfl, hunmarked, ?_, ?_⟩ (.inl rfl)
    · rintro rfl
      exact hfresh hc.before.head
    · rintro rfl
      exact hfresh hc.before.tail
  · rw [or_iff_right hx, or_iff_right hx]
    refine and_congr_right fun hxl => and_congr_left fun _ => ?_
    apply hc.unmarked_iff hxl
    rw [marks_of_links hl]
    rintro ⟨⟩

lemma entries_marks (hi : i < r.len) (hm : marks (r.state i) (r.act i) = some n) :
    n ∈ entries c (r.memory i) ∧ entries c (r.memory (i + 1)) = entries c (r.memory i) \ {n} := by
  have hc := carries_of_run r hi
  have hl : links (r.state i) (r.act i) = none := by
    cases hl : links (r.state i) (r.act i) with
    | none => rfl
    | some x =>
      rw [marks_of_links hl] at hm
      cases hm
  obtain ⟨hv, hunmarked, hmarked⟩ := victim_of_marks r hi hm
  refine ⟨hc.before.mem_entries.mpr ⟨hv.linked, hunmarked, hv.not_head, hv.not_tail⟩, ?_⟩
  ext x
  rw [hc.after.mem_entries, Set.mem_sdiff, hc.before.mem_entries, linked_succ_none hl,
    Set.mem_singleton_iff]
  by_cases hx : x = n
  · subst hx
    simp [hmarked]
  · have hxm : marks (r.state i) (r.act i) ≠ some x := by
      rw [hm]
      exact fun he => hx (Option.some.inj he).symm
    constructor
    · rintro ⟨hxl, hu, hends⟩
      exact ⟨⟨hxl, (hc.unmarked_iff hxl hxm).mp hu, hends⟩, hx⟩
    · rintro ⟨⟨hxl, hu, hends⟩, -⟩
      exact ⟨hxl, (hc.unmarked_iff hxl hxm).mpr hu, hends⟩

/-! ### What a call owes -/

def Site.owes : Site A → ℤ
  | .link _ _ => 1
  | .unlink _ => -1
  | _ => 0

/-- What the call of a thread has added to the number of live entries. -/
def Local.owes (l : Local A V) : ℤ :=
  match l.pc with
  | .load site _ _ | .next site _ _ _ | .snip site _ _ _ _ => site.owes
  | .link _ _ => 1
  | .check _ true => -1
  | .done (.bool true) =>
    match l.op with
    | .insert _ _ _ => 1
    | _ => 0
  | .done (.pointer (some _)) => -1
  | _ => 0

/-- What a step adds to the number of live entries. -/
def change (s : State A V T) (a : Act A V T) : ℤ :=
  (if links s a = none then 0 else 1) - (if marks s a = none then 0 else 1)

lemma ncard_entries_succ (hi : i < r.len) :
    ((entries c (r.memory (i + 1))).ncard : ℤ) =
      (entries c (r.memory i)).ncard + change (r.state i) (r.act i) := by
  have hfinite := (inv_of_run r i hi.le).shape.entries_finite
  cases hl : links (r.state i) (r.act i) with
  | some n =>
    obtain ⟨hn, hentries⟩ := entries_links hi hl
    rw [hentries, Set.ncard_insert_of_notMem hn hfinite, change, hl, marks_of_links hl]
    simp
  | none =>
    cases hm : marks (r.state i) (r.act i) with
    | some n =>
      obtain ⟨hn, hentries⟩ := entries_marks hi hm
      have hcard := Set.ncard_sdiff_singleton_add_one hn hfinite
      rw [hentries, change, hl, hm]
      simp
      omega
    | none =>
      rw [entries_same hi hl hm, change, hl, hm]
      simp

/-- Every call so far is of a kind. -/
def Ops (P : Op V → Prop) (r : Trace c V T) : Prop := ∀ k ≤ r.len, ∀ t, P ((r.state k).thread t).op

/-- No null pointer is stored. -/
abbrev Stored (r : Trace c V T) : Prop := Ops (fun op => ∀ lb ub, op ≠ .insert lb ub none) r

lemma Stored.value (h : Stored r) (hi : i ≤ r.len) (hn : n ∈ r.linked i) (hh : n ≠ c.head) (ht : n ≠ c.tail) :
    ((r.memory i).node n).value ≠ none := by
  induction i with
  | zero =>
    rcases hn with rfl | rfl
    · exact absurd rfl hh
    · exact absurd rfl ht
  | succ i ih =>
    have hc := carries_of_run r hi
    rcases hn with hl | hn
    · obtain ⟨hnew, -⟩ := (inv_of_run r i (by omega)).links_cases (r.next i hi) hl
      rw [hc.node n hnew.own.allocated]
      intro hnone
      have hop := hnew.op
      rw [hnone] at hop
      exact h i (by omega) _ _ _ hop
    · rw [hc.same hn]
      exact ih (by omega) hn

lemma owes_below {v : Vars A V} {level : ℕ} : (⟨v, below n level⟩ : Local A V).owes = 0 := by
  cases level <;> rfl

lemma owes_above {level : ℕ} (hop : ∃ lb ub x, l.op = .insert lb ub x) :
    (l.goto (above m n level)).owes = 1 := by
  obtain ⟨lb, ub, x, hop⟩ := hop
  rw [above]
  split_ifs
  · rfl
  · simp only [Local.owes, Local.goto, hop]

lemma owes_found {v : Vars A V} {site : Site A} {b : Bool}
    (hfind : site = .find → ∃ lb ub, v.op = .find lb ub)
    (hvalue : ∀ n, site = .unlink n → (m.node n).value ≠ none) :
    (⟨v, found m v b site⟩ : Local A V).owes = site.owes := by
  cases site with
  | find =>
    obtain ⟨lb, ub, hop⟩ := hfind rfl
    cases b <;> simp only [found, Local.owes, Site.owes, hop]
  | insert newNode => cases b <;> rfl
  | link newNode level => rfl
  | remove =>
    cases b with
    | false => rfl
    | true => exact owes_below
  | unlink n =>
    obtain ⟨x, hx⟩ := Option.ne_none_iff_exists'.mp (hvalue n rfl)
    simp only [found, Local.owes, Site.owes, hx]

section Advance

variable (hi : i < r.len) (ha : r.act i = .next t spurious)

include hi ha

lemma Stored.unlink (h : Stored r) {site : Site A} (hok : site.Ok r t i ((r.state i).thread t).toVars)
    (hsite : site = .unlink n) : ((r.memory i).node n).value ≠ none := by
  subst hsite
  obtain ⟨-, -, -, k, -, hki, -, x, hx, -, hvalue⟩ := hok
  obtain ⟨hv, -, -⟩ := victim_of_marks r (by omega) hx
  rw [← hvalue]
  exact h.value (by omega) hv.linked hv.not_head hv.not_tail

lemma Advance.owes (h : Stored r) (hadv : Advance c (r.memory i) ((r.state i).thread t) spurious m' l') :
    l'.owes = ((r.state i).thread t).owes + change (r.state i) (r.act i) := by
  have hok := (inv_of_run r i hi.le).ok t
  rw [ha]
  have hquiet : ∀ {pc}, ((r.state i).thread t).pc = pc →
      (∀ n, pc ≠ .linkBottom n) → (∀ n s, pc ≠ .markBottom n s) →
      change (r.state i) (.next t spurious) = 0 := by
    intro pc hpc hlink hmark
    cases pc with
    | linkBottom n => exact absurd rfl (hlink n)
    | markBottom n s => exact absurd rfl (hmark n s)
    | _ => simp [change, links, marks, hpc]
  cases hadv with
  | load hpc | marked hpc | less hpc | down hpc | snip hpc =>
    rw [hquiet hpc (by simp) (by simp), add_zero]
    simp only [Local.owes, Local.goto, hpc]
  | @retry site level pred curr succ hpc =>
    rw [hquiet hpc (by simp) (by simp), add_zero]
    simp only [Local.owes, Local.goto, hpc, LockFree.retry]
  | @found site pred curr hpc =>
    rw [hquiet hpc (by simp) (by simp), add_zero]
    rw [hpc] at hok
    have hsite := hok.1.site
    rw [owes_found]
    · simp only [Local.owes, hpc]
    · rintro rfl
      exact hsite
    · intro n hn
      exact Stored.unlink hi ha h hsite hn
  | store hpc | stored hpc | relink hpc | read hpc | mark hpc | remark hpc | readBottom hpc
  | mine hpc | other hpc | again hpc =>
    rw [hquiet hpc (by simp) (by simp), add_zero]
    simp only [Local.owes, Local.goto, hpc, LockFree.retry, Site.owes]
  | readMarked hpc =>
    rw [hquiet hpc (by simp) (by simp), add_zero]
    simp only [Local.goto, owes_below]
    simp only [Local.owes, hpc]
  | link hpc =>
    rw [hquiet hpc (by simp) (by simp), add_zero]
    rw [hpc] at hok
    rw [owes_above ⟨_, _, _, hok.1.1.op⟩]
    simp only [Local.owes, hpc]
  | linkBottom hpc hcas =>
    rw [hpc] at hok
    rw [owes_above ⟨_, _, _, hok.1.op⟩]
    simp [change, links, marks, hpc, hcas, Local.owes]
  | refind hpc hcas =>
    simp [change, links, marks, hpc, hcas, Local.owes, Local.goto, LockFree.retry, Site.owes]
  | markBottom hpc hcas =>
    simp [change, links, marks, hpc, hcas, Local.owes, Local.goto]
  | unmarked hpc hcas =>
    simp [change, links, marks, hpc, hcas, Local.owes, Local.goto]

end Advance

lemma Local.owes_idle (h : l.pc = .idle) : l.owes = 0 := by
  simp only [Local.owes, h]

lemma owes_succ (hi : i < r.len) (h : Stored r) (hret : ∀ u, r.act i ≠ .ret u) (u : T) :
    ((r.state (i + 1)).thread u).owes = ((r.state i).thread u).owes +
      if u = (r.act i).thread then change (r.state i) (r.act i) else 0 := by
  have hput : ∀ {m : Memory A V} {t : T} {l : Local A V}, r.state (i + 1) = (r.state i).put m t l →
      (r.act i).thread = t → l.owes = ((r.state i).thread t).owes + change (r.state i) (r.act i) →
      ((r.state (i + 1)).thread u).owes = ((r.state i).thread u).owes +
        if u = (r.act i).thread then change (r.state i) (r.act i) else 0 := by
    intro m t l hs ht hl
    rw [ht]
    by_cases hu : u = t
    · subst hu
      rw [if_pos rfl, thread_self hs, hl]
    · rw [if_neg hu, thread_other hs hu, add_zero]
  have hstep : Step c (r.state i) (r.act i) (r.state (i + 1)) := step_cases (r.next i hi)
  generalize ha : r.act i = a at hstep
  generalize hs : r.state (i + 1) = s at hstep
  rw [← ha, ← hs]
  cases hstep with
  | @call t op hpc =>
    apply hput hs (by rw [ha]; rfl)
    rw [Local.owes_idle hpc, ha]
    cases op <;> rfl
  | @allocate t newNode topLevel lb ub x hpc =>
    apply hput hs (by rw [ha]; rfl)
    rw [ha]
    simp only [Local.owes, hpc]
    rfl
  | next hadv =>
    apply hput hs (by rw [ha]; rfl)
    exact hadv.owes hi ha h
  | @ret t => exact absurd ha (hret t)

/-- The live entries, less what the calls in progress have added. -/
noncomputable def held [Fintype T] (c : Config A) (s : State A V T) : ℤ :=
  (entries c s.memory).ncard - ∑ u, (s.thread u).owes

lemma held_succ [Fintype T] (hi : i < r.len) (h : Stored r) (hret : ∀ u, r.act i ≠ .ret u) :
    held c (r.state (i + 1)) = held c (r.state i) := by
  have hsum : ∑ u, ((r.state (i + 1)).thread u).owes =
      ∑ u, ((r.state i).thread u).owes + change (r.state i) (r.act i) := by
    rw [Finset.sum_congr rfl fun u _ => owes_succ hi h hret u, Finset.sum_add_distrib, Finset.sum_ite_eq',
      if_pos (Finset.mem_univ _)]
  have hcard := ncard_entries_succ hi
  simp only [Trace.memory] at hcard
  rw [held, held, hcard, hsum]
  omega

end ObjectCache.LockFree
