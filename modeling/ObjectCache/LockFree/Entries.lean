import ObjectCache.LockFree.Invariant

/-! The entries of the skip list: disjoint ranges in order, linked once, returned by at most one
remove. -/

set_option linter.unusedSectionVars false

namespace ObjectCache.LockFree

open Lib StateTransition

variable {A V T : Type} [DecidableEq A] [DecidableEq T] {c : Config A} {r : Trace c V T} {t u : T}
  {i j k : ℕ} {n : A}

/-- The step `i` ends a call of `t` with an answer. -/
structure Returns (r : Trace c V T) (t : T) (i : ℕ) (ret : Ret V) : Prop where
  lt : i < r.len
  act : r.act i = .ret t
  done : ((r.state i).thread t).pc = .done ret

structure Correct (r : Trace c V T) : Prop where
  ordered : ∀ i ≤ r.len, ∀ a b, Live c (r.memory i) a → Live c (r.memory i) b → a ≠ b →
    Reaches (r.memory i).bottom a b ∧ ((r.memory i).node a).key_high ≤ ((r.memory i).node b).key_low ∨
      Reaches (r.memory i).bottom b a ∧ ((r.memory i).node b).key_high ≤ ((r.memory i).node a).key_low
  answers : ∀ {t i ret}, Returns r t i ret → Answer r t i ((r.state i).thread t).op ret
  /-- A linked node is live until it is marked. -/
  stays : ∀ {k n i}, links (r.state k) (r.act k) = some n → k < i → i ≤ r.len →
    Live c (r.memory i) n ∨ ∃ j, k < j ∧ j < i ∧ marks (r.state j) (r.act j) = some n
  linkedOnce : ∀ {j k n}, j < r.len → k < r.len → links (r.state j) (r.act j) = some n →
    links (r.state k) (r.act k) = some n → j = k
  /-- Only a linked node is marked, and only by a remove. -/
  marked : ∀ {j n}, j < r.len → marks (r.state j) (r.act j) = some n →
    (∃ k < j, links (r.state k) (r.act k) = some n) ∧
      ∃ lb ub, ((r.state j).thread (r.act j).thread).op = .remove lb ub
  /-- A node is marked during at most one call that returns. -/
  markedOnce : ∀ {t u i j n ret ret'}, Returns r t i ret → Returns r u j ret' →
    (r.Did t i fun k => (r.act k).thread = t ∧ marks (r.state k) (r.act k) = some n) →
    (r.Did u j fun k => (r.act k).thread = u ∧ marks (r.state k) (r.act k) = some n) → i = j

/-! ### Links and marks -/

lemma linked_of_links (h : links (r.state k) (r.act k) = some n) (hk : k < i) : n ∈ r.linked i := by
  induction i with
  | zero => omega
  | succ i ih =>
    rcases Nat.lt_succ_iff_lt_or_eq.mp hk with hlt | rfl
    · exact linked_mono (ih hlt)
    · exact .inl h

lemma mem_linked (h : n ∈ r.linked i) :
    n = c.head ∨ n = c.tail ∨ ∃ k < i, links (r.state k) (r.act k) = some n := by
  induction i with
  | zero =>
    rcases h with rfl | rfl
    · exact .inl rfl
    · exact .inr (.inl rfl)
  | succ i ih =>
    rcases h with hl | h
    · exact .inr (.inr ⟨i, i.lt_succ_self, hl⟩)
    · rcases ih h with hh | ht | ⟨k, hk, hl⟩
      · exact .inl hh
      · exact .inr (.inl ht)
      · exact .inr (.inr ⟨k, by omega, hl⟩)

/-- A step that links a node: the node is new, and unmarked. -/
lemma Inv.links_cases (h : Inv r i)
    (hs : LockFree.step c (r.state i) (r.act i) = some (r.state (i + 1)))
    (hl : links (r.state i) (r.act i) = some n) :
    New r (r.act i).thread i ((r.state i).thread (r.act i).thread).toVars n ∧
      ((r.memory (i + 1)).next n 0).marked = false := by
  cases ha : r.act i with
  | next t spurious =>
    rw [ha] at hl hs
    cases hpc : ((r.state i).thread t).pc with
    | linkBottom newNode =>
      simp only [links, hpc] at hl
      split_ifs at hl with hcas
      cases hl
      have hok := h.ok t
      rw [hpc] at hok
      refine ⟨hok.1, ?_⟩
      simp only [LockFree.step, LockFree.advance, hpc, if_pos hcas, Option.map_some,
        Option.some.injEq] at hs
      rw [Trace.memory, ← hs]
      simp only [State.put]
      rw [setNext_next]
      split_ifs
      · rfl
      · exact hok.1.own.unmarked 0
    | _ => simp [links, hpc] at hl
  | _ =>
    rw [ha] at hl
    cases hl

/-- A step that marks a node: the node was unmarked, and is marked now. -/
lemma Inv.marks_cases (h : Inv r i)
    (hs : LockFree.step c (r.state i) (r.act i) = some (r.state (i + 1)))
    (hm : marks (r.state i) (r.act i) = some n) :
    Victim r (r.act i).thread i ((r.state i).thread (r.act i).thread).toVars n ∧
      ((r.memory i).next n 0).marked = false ∧ ((r.memory (i + 1)).next n 0).marked := by
  cases ha : r.act i with
  | next t spurious =>
    rw [ha] at hm hs
    cases hpc : ((r.state i).thread t).pc with
    | markBottom nodeToRemove succ =>
      simp only [marks, hpc] at hm
      split_ifs at hm with hcas
      cases hm
      have hok := h.ok t
      rw [hpc] at hok
      refine ⟨hok.1, by rw [next_of_cas hcas], ?_⟩
      simp only [LockFree.step, LockFree.advance, hpc, if_pos hcas, Option.map_some,
        Option.some.injEq] at hs
      rw [Trace.memory, ← hs]
      simp only [State.put]
      rw [setNext_self]
    | _ => simp [marks, hpc] at hm
  | _ =>
    rw [ha] at hm
    cases hm

lemma idle_of_idle {s s' : State A V T} {a : Act A V T} (hs : step c s a = some s')
    (hidle : (s.thread t).pc = .idle) (ho : ¬ opens t a) : (s'.thread t).pc = .idle := by
  have hother : ∀ {m : Memory A V} {u : T} {l : Local A V}, u ≠ t →
      ((s.put m u l).thread t).pc = .idle := by
    intro m u l hu
    rw [State.put]
    simp only [Function.update_of_ne hu.symm]
    exact hidle
  cases step_cases hs with
  | call hpc hop => exact hother ho
  | allocate hpc hop hn htop =>
    refine hother ?_
    rintro rfl
    rw [hidle] at hpc
    cases hpc
  | @next u spurious m l hadv =>
    refine hother ?_
    rintro rfl
    simp [step, advance, hidle] at hs
  | ret hpc =>
    refine hother ?_
    rintro rfl
    rw [hidle] at hpc
    cases hpc

section Run

variable (r)

lemma victim_of_marks (hj : j < r.len) (hm : marks (r.state j) (r.act j) = some n) :
    Victim r (r.act j).thread j ((r.state j).thread (r.act j).thread).toVars n ∧
      ((r.memory j).next n 0).marked = false ∧ ((r.memory (j + 1)).next n 0).marked :=
  (inv_of_run r j hj.le).marks_cases (r.next j hj) hm

/-- A marked node stays marked. -/
lemma marked_of_marked (hj : n ∈ r.linked j) (hm : ((r.memory j).next n 0).marked) (hjk : j ≤ k)
    (hk : k ≤ r.len) : n ∈ r.linked k ∧ ((r.memory k).next n 0).marked := by
  induction k, hjk using Nat.le_induction with
  | base => exact ⟨hj, hm⟩
  | succ k _ ih =>
    obtain ⟨hn, hmk⟩ := ih (by omega)
    refine ⟨linked_mono hn, ?_⟩
    rw [(carries_of_run r (by omega)).frozen n hn 0 hmk]
    exact hmk

lemma marks_lt_false (hj : marks (r.state j) (r.act j) = some n)
    (hk : marks (r.state k) (r.act k) = some n) (hkl : k < r.len) : ¬ j < k := by
  intro hlt
  obtain ⟨hv, -, hm⟩ := victim_of_marks r (by omega) hj
  obtain ⟨-, hunmarked, -⟩ := victim_of_marks r hkl hk
  obtain ⟨-, hmarked⟩ := marked_of_marked r (linked_mono hv.linked) hm hlt hkl.le
  rw [hunmarked] at hmarked
  cases hmarked

lemma marks_unique (hj : marks (r.state j) (r.act j) = some n)
    (hk : marks (r.state k) (r.act k) = some n) (hjl : j < r.len) (hkl : k < r.len) : j = k := by
  rcases Nat.lt_trichotomy j k with hlt | heq | hlt
  · exact absurd hlt (marks_lt_false r hj hk hkl)
  · exact heq
  · exact absurd hlt (marks_lt_false r hk hj hjl)

lemma links_lt_false (hj : links (r.state j) (r.act j) = some n)
    (hk : links (r.state k) (r.act k) = some n) (hkl : k < r.len) : ¬ j < k := by
  intro hlt
  obtain ⟨hn, -⟩ := (inv_of_run r k hkl.le).links_cases (r.next k hkl) hk
  exact hn.own.not_linked (linked_of_links hj hlt)

lemma live_or_marked (hk : links (r.state k) (r.act k) = some n) (hki : k < i) (hi : i ≤ r.len) :
    ((r.memory i).next n 0).marked = false ∨
      ∃ j, k < j ∧ j < i ∧ marks (r.state j) (r.act j) = some n := by
  induction i, hki using Nat.le_induction with
  | base =>
    exact .inl ((inv_of_run r k (by omega)).links_cases (r.next k (by omega)) hk).2
  | succ i hki ih =>
    have hn := linked_of_links hk hki
    rcases ih (by omega) with hu | ⟨j, hj, hji, hm⟩
    · cases hm : ((r.memory (i + 1)).next n 0).marked with
      | false => exact .inl rfl
      | true =>
        rcases (carries_of_run r (by omega)).marked n hn hm with hold | hmark
        · rw [hu] at hold
          cases hold
        · exact .inr ⟨i, hki, i.lt_succ_self, hmark⟩
    · exact .inr ⟨j, hj, by omega, hm⟩

/-- After the answer of a call its thread is idle until it calls again. -/
lemma since_of_returns {ret : Ret V} (h : Returns r t i ret) (hij : i < j) (hj : j ≤ r.len) :
    ((r.state j).thread t).pc = .idle ∨ i < Machine.Run.since r (opens t) j := by
  induction j, hij using Nat.le_induction with
  | base =>
    left
    have hs := r.next i h.lt
    rw [h.act] at hs
    simp only [machine, step, h.done, Option.some.injEq] at hs
    rw [← hs]
    simp [State.put, Local.goto]
  | succ j hij ih =>
    have hlt : j < r.len := by omega
    by_cases ho : opens t (r.act j)
    · right
      rw [Machine.Run.since_opens ho]
      omega
    · rcases ih (by omega) with hidle | hsince
      · exact .inl (idle_of_idle (r.next j hlt) hidle ho)
      · right
        rwa [Machine.Run.since_succ ho]

lemma markedOnce {ret ret' : Ret V} (h : Returns r t i ret) (h' : Returns r u j ret')
    (hm : r.Did t i fun k => (r.act k).thread = t ∧ marks (r.state k) (r.act k) = some n)
    (hm' : r.Did u j fun k => (r.act k).thread = u ∧ marks (r.state k) (r.act k) = some n) :
    ¬ i < j := by
  intro hij
  obtain ⟨k, hk, hki, rfl, hkm⟩ := hm
  obtain ⟨k', hk', hkj, rfl, hkm'⟩ := hm'
  have hi := h.lt
  have hj := h'.lt
  obtain rfl := marks_unique r hkm hkm' (by omega) (by omega)
  rcases since_of_returns r h hij hj.le with hidle | hsince
  · rw [h'.done] at hidle
    cases hidle
  · omega

theorem correct : Correct r where
  ordered i hi a b ha hb hne := (inv_of_run r i hi).shape.disjoint ha.reach hb.reach hne
  answers {t i ret} h := by
    have hok := (inv_of_run r i h.lt.le).ok t
    rw [h.done] at hok
    exact hok
  stays {k n i} hk hki hi := by
    rcases live_or_marked r hk hki hi with hu | hm
    · exact .inl ((inv_of_run r i hi).shape.live (linked_of_links hk hki) hu)
    · exact .inr hm
  linkedOnce {j k n} hj hk hlj hlk := by
    rcases Nat.lt_trichotomy j k with hlt | heq | hlt
    · exact absurd hlt (links_lt_false r hlj hlk hk)
    · exact heq
    · exact absurd hlt (links_lt_false r hlk hlj hj)
  marked {j n} hj hm := by
    obtain ⟨hv, -⟩ := victim_of_marks r hj hm
    exact ⟨((mem_linked hv.linked).resolve_left hv.not_head).resolve_left hv.not_tail, hv.op⟩
  markedOnce {t u i j n ret ret'} h h' hm hm' := by
    rcases Nat.lt_trichotomy i j with hlt | heq | hlt
    · exact absurd hlt (markedOnce r h h' hm hm')
    · exact heq
    · exact absurd hlt (markedOnce r h' h hm' hm)

end Run

/-! ### A stored null pointer -/

/-- One thread stores a null pointer under 0 to 10 and a value under 10 to 20, and removes what
overlaps 0 to 20. -/
def nullActs : List (Act ℕ ℕ Unit) :=
  let next : ℕ → List (Act ℕ ℕ Unit) := fun n => List.replicate n (.next () false)
  .call () (.insert 0 10 none) :: .allocate () 2 0 :: next 34 ++
    .ret () :: .call () (.insert 10 20 (some 7)) :: .allocate () 3 0 :: next 35 ++
    .ret () :: .call () (.remove 0 20) :: next 70 ++ [.ret ()]

def pairConfig : Config ℕ := ⟨0, 1, by decide⟩

def nullRun : Trace pairConfig ℕ Unit :=
  .ofActs _ (initial pairConfig) nullActs rfl (by decide +kernel)

lemma nullRun_live : ∀ k, 76 ≤ k → k < 147 → Live pairConfig (nullRun.memory k) 3 ∧
    ((nullRun.memory k).node 3).is_equal 0 20 := by
  intro k hk hk'
  have hlinks : links (nullRun.state 73) (nullRun.act 73) = some 3 := by decide +kernel
  have hunmarked : ∀ k < 147, 76 ≤ k → ((nullRun.memory k).next 3 0).marked = false ∧
      ((nullRun.memory k).node 3).is_equal 0 20 := by decide +kernel
  obtain ⟨hu, he⟩ := hunmarked k hk' hk
  exact ⟨(inv_of_run nullRun k hk'.le).shape.live (linked_of_links hlinks (by omega)) hu, he⟩

theorem not_cleared_null : ¬ ∀ (r : Trace pairConfig ℕ Unit) (i : ℕ), Returns r () i (.pointer none) →
    (∃ a b, ((r.state i).thread ()).op = .remove a b) →
    Cleared r () i ((r.state i).thread ()).op ∨ Lost r () i ((r.state i).thread ()).op := by
  intro h
  have hreturns : Returns nullRun () 146 (.pointer none) := ⟨by decide +kernel, rfl, by decide +kernel⟩
  have hop : ((nullRun.state 146).thread ()).op = .remove 0 20 := by
    decide +kernel
  have hsince : Machine.Run.since nullRun (opens ()) 146 = 76 := by decide +kernel
  rcases h nullRun 146 hreturns ⟨0, 20, hop⟩ with ⟨k, hk, hki, hclear⟩ | ⟨k, -, -, hne, -⟩
  · rw [hsince] at hk
    obtain ⟨hlive, he⟩ := nullRun_live k hk (by omega)
    have hnot := hclear 3 hlive
    rw [hop] at hnot
    rw [show ((nullRun.memory k).node 3).is_equal 0 20 = false from hnot] at he
    cases he
  · exact hne rfl

end ObjectCache.LockFree
