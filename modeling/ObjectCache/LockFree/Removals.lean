import ObjectCache.LockFree.Count

/-! Removals that do not return empty-handed, and runs of the list that go one step further. -/

set_option linter.unusedSectionVars false

namespace ObjectCache.LockFree

open Lib StateTransition

variable {A V T : Type} [DecidableEq A] [DecidableEq T] {c : Config A} {r r' : Trace c V T} {t u : T} {i : ℕ}
  {n : A} {a : Act A V T} {s : State A V T}

/-! ### What is overlapped stays overlapped -/

/-- As long as the call of `t` has marked nothing, some live entry overlaps its range, and no other thread
has marked one. -/
def Secure (r : Trace c V T) (t : T) (i : ℕ) : Prop :=
  NoMark r t i → ¬ Cleared r t i ((r.state i).thread t).op ∧ ¬ Lost r t i ((r.state i).thread t).op

lemma op_succ (hi : i < r.len) (ho : ¬ opens t (r.act i)) :
    ((r.state (i + 1)).thread t).op = ((r.state i).thread t).op := by
  have hput : ∀ {m : Memory A V} {u : T} {l : Local A V}, r.state (i + 1) = (r.state i).put m u l →
      l.op = ((r.state i).thread u).op → ((r.state (i + 1)).thread t).op = ((r.state i).thread t).op := by
    intro m u l hs hl
    by_cases ht : t = u
    · subst ht
      rw [thread_self hs, hl]
    · rw [thread_other hs ht]
  have hstep : Step c (r.state i) (r.act i) (r.state (i + 1)) := step_cases (r.next i hi)
  generalize ha : r.act i = a at hstep
  generalize hs : r.state (i + 1) = s at hstep
  rw [← hs]
  cases hstep with
  | @call v op hpc =>
    have htv : t ≠ v := by
      rintro rfl
      exact ho (by rw [ha]; rfl)
    rw [thread_other hs htv]
  | allocate => exact hput hs rfl
  | ret => exact hput hs rfl
  | next hadv =>
    apply hput hs
    cases hadv <;> rfl

lemma Secure.succ (h : Secure r t i) (hi : i < r.len) (ho : ¬ opens t (r.act i))
    (hothers : (r.act i).thread ≠ t → NoMark r t i → ∀ n, marks (r.state i) (r.act i) = some n →
      ((r.memory i).node n).is_equal ((r.state i).thread t).op.key_lb ((r.state i).thread t).op.key_ub =
        false) : Secure r t (i + 1) := by
  intro hno
  have hold : NoMark r t i := fun hd => hno (Machine.Run.Did.succ hd ho)
  obtain ⟨hclear, hlost⟩ := h hold
  rw [op_succ hi ho]
  constructor
  · rintro ⟨k, hk, hki, hclr⟩
    rcases Nat.lt_or_eq_of_le hki with hlt | rfl
    · rw [Machine.Run.since_succ ho] at hk
      exact hclear ⟨k, hk, by omega, hclr⟩
    · have hc := carries_of_run r hi
      have hnow : ¬ Clear c (r.memory i) ((r.state i).thread t).op.key_lb ((r.state i).thread t).op.key_ub :=
        fun hclr => hclear (Machine.Run.During.now hclr)
      rw [Clear] at hnow
      push Not at hnow
      obtain ⟨n, hlive, heq⟩ := hnow
      have hn := hlive.mem hc.before.toLinks
      have hstays : ((r.memory (i + 1)).next n 0).marked = false := by
        refine (hc.unmarked_iff hn fun hm => ?_).mpr hlive.unmarked
        by_cases ht : (r.act i).thread = t
        · exact hno (Machine.Run.Did.step ⟨ht, by rw [hm]; simp⟩ ho)
        · exact heq (hothers ht hold n hm)
      have hequal := hclr n (hc.after.live (linked_mono hn) hstays)
      rw [hc.same hn] at hequal
      exact heq hequal
  · rw [Lost, Trace.Did, Machine.Run.did_succ_iff ho]
    rintro (hd | ⟨ht, n, hm, heq⟩)
    · exact hlost hd
    · rw [hothers ht hold n hm] at heq
      cases heq

/-- A removal that starts where an entry overlaps its range. -/
lemma Secure.call {op : Op V} (hi : i < r.len) (ha : r.act i = .call t op)
    (hover : ¬ Clear c (r.memory i) op.key_lb op.key_ub) : Secure r t (i + 1) := by
  intro hno
  have hopens : opens t (r.act i) := by
    rw [ha]
    rfl
  have hstep : Step c (r.state i) (r.act i) (r.state (i + 1)) := step_cases (r.next i hi)
  rw [ha] at hstep
  generalize hs : r.state (i + 1) = s at hstep
  cases hstep with
  | call hpc hlegal =>
    rw [← hs, thread_self hs]
    constructor
    · rintro ⟨k, hk, hki, hclr⟩
      rw [Machine.Run.since_opens hopens] at hk
      obtain rfl : k = i + 1 := by omega
      rw [memory_succ hs] at hclr
      exact hover hclr
    · exact Machine.Run.not_did_opens hopens

/-- Without removals nothing is marked on any level. -/
lemma unmarked_of_ops (h : Ops (fun op => ∀ lb ub, op ≠ .remove lb ub) r) (hi : i ≤ r.len) (n : A)
    (level : ℕ) : ((r.memory i).next n level).marked = false := by
  induction i generalizing n level with
  | zero =>
    rw [Trace.memory, show r.state 0 = initial c from r.start]
    simp only [initial]
    split_ifs <;> rfl
  | succ i ih =>
    have hold := fun n level => ih (by omega) n level
    have hset : ∀ {a : A} {k : ℕ} {p : Ptr A}, p.marked = false →
        (((r.memory i).setNext a k p).next n level).marked = false := by
      intro a k p hp
      rw [setNext_next]
      split_ifs
      · exact hp
      · exact hold n level
    have hno : ∀ t, ¬ ∃ lb ub, ((r.state i).thread t).op = .remove lb ub := by
      rintro t ⟨lb, ub, hop⟩
      exact h i (by omega) t lb ub hop
    have hstep : Step c (r.state i) (r.act i) (r.state (i + 1)) := step_cases (r.next i hi)
    generalize r.act i = a at hstep
    generalize hs : r.state (i + 1) = s at hstep
    cases hstep with
    | call | ret =>
      rw [memory_succ hs]
      exact hold n level
    | @allocate t newNode topLevel lb ub x =>
      rw [memory_succ hs]
      by_cases hn : n = newNode
      · subst hn
        simp
      · simp only [Function.update_of_ne hn]
        exact hold n level
    | @next t spurious m l hadv =>
      rw [memory_succ hs]
      have hok := (inv_of_run r i (by omega)).ok t
      cases hadv with
      | snip | store | stored | linkBottom | link => exact hset rfl
      | mark hpc =>
        rw [hpc] at hok
        exact absurd hok.1.op (hno t)
      | markBottom hpc =>
        rw [hpc] at hok
        exact absurd hok.1.op (hno t)
      | _ => exact hold n level

/-! ### One more step -/

/-- `r'` goes one step further than `r`. -/
structure Extends (r r' : Trace c V T) (a : Act A V T) (s : State A V T) : Prop where
  len : r'.len = r.len + 1
  state : ∀ k ≤ r.len, r'.state k = r.state k
  act : ∀ k < r.len, r'.act k = r.act k
  last : r'.act r.len = a
  final : r'.state (r.len + 1) = s

lemma exists_extends (h : step c (r.state r.len) a = some s) : ∃ r', Extends r r' a s := by
  refine ⟨r.snoc a s h, rfl, fun k hk => ?_, fun k hk => ?_, ?_, ?_⟩
  · simp [Machine.Run.snoc, hk]
  · simp [Machine.Run.snoc, hk]
  · simp [Machine.Run.snoc]
  · simp [Machine.Run.snoc]

namespace Extends

variable (h : Extends r r' a s)

include h

lemma linked : r'.linked r.len = r.linked r.len :=
  Get.linked_congr (fun k hk => h.state k hk.le) h.act

lemma noLink_iff : NoLink r' t r.len ↔ NoLink r t r.len := by
  refine not_congr (Machine.Run.did_congr h.act fun k hk => ?_)
  rw [LinksAt, LinksAt, h.state k hk.le, h.act k hk]

lemma noMark_iff : NoMark r' t r.len ↔ NoMark r t r.len := by
  refine not_congr (Machine.Run.did_congr h.act fun k hk => ?_)
  rw [MarksAt, MarksAt, h.state k hk.le, h.act k hk]

lemma secure (hs : Secure r t r.len) : Secure r' t r.len := by
  intro hno
  obtain ⟨hclear, hlost⟩ := hs (h.noMark_iff.mp hno)
  rw [h.state r.len le_rfl]
  refine ⟨fun hc => hclear ?_, fun hl => hlost ?_⟩
  · refine (Machine.Run.during_congr h.act fun k hk => ?_).mp hc
    rw [Trace.memory, Trace.memory, h.state k hk]
  · refine (Machine.Run.did_congr h.act fun k hk => ?_).mp hl
    rw [Trace.memory, Trace.memory, h.state k hk.le, h.act k hk]

lemma ops {P : Op V → Prop} (hs : Ops P r) (ht : a.thread = t) (hop : P (s.thread t).op) : Ops P r' := by
  intro k hk u
  rcases Nat.lt_or_eq_of_le hk with hlt | rfl
  · rw [h.len] at hlt
    rw [h.state k (by omega)]
    exact hs k (by omega) u
  · rw [h.len, h.final]
    by_cases hu : u = t
    · subst hu
      exact hop
    · have hlt : r.len < r'.len := by
        rw [h.len]
        exact Nat.lt_succ_self _
      have hno : ¬ opens u (r'.act r.len) := by
        rw [h.last]
        exact fun ho => hu ((thread_of_opens ho).symm.trans ht)
      have hsame := op_succ hlt hno
      rw [h.final, h.state r.len le_rfl] at hsame
      rw [hsame]
      exact hs r.len le_rfl u

lemma held [Fintype T] (hs : Stored r') (ha : ∀ u, a ≠ .ret u) :
    LockFree.held c s = LockFree.held c (r.state r.len) := by
  have hlt : r.len < r'.len := by
    rw [h.len]
    exact Nat.lt_succ_self _
  have hstep := held_succ hlt hs fun u => by rw [h.last]; exact ha u
  rwa [h.final, h.state r.len le_rfl] at hstep

end Extends

/-- What the step links and leaves. -/
structure Advances (r r' : Trace c V T) (a : Act A V T) : Prop where
  linked : ∀ n ∈ r'.linked r'.len, n ∈ r.linked r.len ∨
    ((r.state r.len).thread a.thread).pc ≠ .idle ∧
      ((r.state r.len).thread a.thread).op = .insert ((r'.memory r'.len).node n).key_low
        ((r'.memory r'.len).node n).key_high ((r'.memory r'.len).node n).value ∧
      ¬ NoLink r' a.thread r'.len
  mono : ∀ n ∈ r.linked r.len, n ∈ r'.linked r'.len ∧
    (r'.memory r'.len).node n = (r.memory r.len).node n
  op : ∀ t, ¬ opens t a → ((r'.state r'.len).thread t).op = ((r.state r.len).thread t).op
  noLink : ∀ t, ¬ opens t a → NoLink r' t r'.len → NoLink r t r.len

lemma pc_of_links (h : links s a = some n) : (s.thread a.thread).pc = .linkBottom n ∧ ∀ t, ¬ opens t a := by
  cases a with
  | next t spurious =>
    cases hpc : (s.thread t).pc with
    | linkBottom newNode =>
      simp only [links, hpc] at h
      split_ifs at h
      cases h
      exact ⟨hpc, fun _ => id⟩
    | _ => simp [links, hpc] at h
  | _ => cases h

lemma Extends.advances (h : Extends r r' a s) : Advances r r' a := by
  have hlt : r.len < r'.len := by
    rw [h.len]
    exact Nat.lt_succ_self _
  have hat := h.state r.len le_rfl
  have hc := carries_of_run r' hlt
  refine ⟨fun n hn => ?_, fun n hn => ?_, fun t ht => ?_, fun t ht hl => ?_⟩
  · rw [h.len] at hn
    rcases hn with hl | hn
    · right
      obtain ⟨hnew, -⟩ := (inv_of_run r' r.len hlt.le).links_cases (r'.next r.len hlt) hl
      obtain ⟨hpc, hno⟩ := pc_of_links hl
      have hop := hnew.op
      rw [← hc.node n hnew.own.allocated, h.last, hat] at hop
      rw [h.last, hat] at hpc
      refine ⟨by rw [hpc]; simp, ?_, ?_⟩
      · rw [h.len]
        exact hop
      · rw [h.len]
        refine fun hnone => hnone (Machine.Run.Did.step ⟨by rw [h.last], ?_⟩ (hno _))
        rw [hl]
        simp
    · exact .inl (h.linked ▸ hn)
  · rw [← h.linked] at hn
    rw [h.len]
    refine ⟨linked_mono hn, ?_⟩
    rw [hc.same hn, Trace.memory, hat]
  · rw [← h.last] at ht
    rw [h.len, op_succ hlt ht, hat]
  · rw [← h.last] at ht
    rw [h.len] at hl
    exact h.noLink_iff.mp fun hd => hl (Machine.Run.Did.succ hd ht)

end ObjectCache.LockFree
