import ObjectCache.LockFree.Steps
import ObjectCache.Lib.Links
import Mathlib.Data.Set.Insert

/-! The bottom level of the skip list: its linked nodes, in order, from head to tail. -/

set_option linter.unusedSectionVars false

namespace ObjectCache.LockFree

open Lib StateTransition

variable {A V : Type} [DecidableEq A] {c : Config A} {linked : Set A} {m m' : Memory A V} {a n q : A}
  {level : ℕ} {p : Ptr A} {lb ub : ℤ}

def Memory.bottom (m : Memory A V) (n : A) : Option A := (m.next n 0).node

/-- A node that following `next[0]` from head leads to, and whose own `next[0]` is unmarked. -/
structure Live (c : Config A) (m : Memory A V) (n : A) : Prop where
  reach : Reaches m.bottom c.head n
  unmarked : (m.next n 0).marked = false

/-- No live node overlaps the range. -/
def Clear (c : Config A) (m : Memory A V) (lb ub : ℤ) : Prop :=
  ∀ n, Live c m n → (m.node n).is_equal lb ub = false

/-- Where a pointer on a level may lead. -/
structure Target (c : Config A) (linked : Set A) (m : Memory A V) (level : ℕ) (q : A) : Prop where
  linked : q ∈ linked
  level : level ≤ (m.node q).topLevel
  not_head : q ≠ c.head

/-- What holds of every linked node. -/
structure Links (c : Config A) (linked : Set A) (m : Memory A V) : Prop where
  head : c.head ∈ linked
  tail : c.tail ∈ linked
  head_node : m.node c.head = ⟨MAX_LEVEL, INT_MIN, INT_MIN, none⟩
  tail_node : m.node c.tail = ⟨MAX_LEVEL, INT_MAX, INT_MAX, none⟩
  head_unmarked : ∀ level, (m.next c.head level).marked = false
  tail_next : ∀ level, m.next c.tail level = ⟨none, false⟩
  target : ∀ {n level q}, n ∈ linked → (m.next n level).node = some q → Target c linked m level q
  ordered : ∀ {n q}, n ∈ linked → m.bottom n = some q → (m.node n).key_high ≤ (m.node q).key_low
  range : ∀ {n}, n ∈ linked → (m.node n).key_low ≤ (m.node n).key_high
  /-- The bottom level is marked last. -/
  marks : ∀ {n level}, n ∈ linked → (m.next n 0).marked → level ≤ (m.node n).topLevel →
    (m.next n level).marked
  whole : ∀ {n level}, n ∈ linked → n ≠ c.tail → level ≤ (m.node n).topLevel → level < MAX_LEVEL →
    (m.next n level).node ≠ none
  allocated : ∀ {n}, n ∈ linked → n ∈ m.allocated

structure Shape (c : Config A) (linked : Set A) (m : Memory A V) : Prop extends
    Links c linked m where
  reach : ∀ {n}, n ∈ linked → (m.next n 0).marked = false → Reaches m.bottom c.head n

/-- A node that only the thread that has allocated it knows. -/
structure Private (c : Config A) (linked : Set A) (m : Memory A V) (n : A) : Prop where
  not_linked : n ∉ linked
  allocated : n ∈ m.allocated
  unmarked : ∀ level, (m.next n level).marked = false
  target : ∀ {level q}, (m.next n level).node = some q → Target c linked m level q

lemma Shape.initial {T : Type} : Shape c {c.head, c.tail} (initial c : State A V T).memory := by
  have hnext : ∀ n level, (LockFree.initial c : State A V T).memory.next n level =
      if n = c.head ∧ level < MAX_LEVEL then ⟨some c.tail, false⟩ else ⟨none, false⟩ :=
    fun _ _ => rfl
  have hunmarked : ∀ n level, ((LockFree.initial c : State A V T).memory.next n level).marked = false := by
    intro n level
    rw [hnext]
    split_ifs <;> rfl
  have hhead : (LockFree.initial c : State A V T).memory.node c.head =
      ⟨MAX_LEVEL, INT_MIN, INT_MIN, none⟩ := if_pos rfl
  have htail : (LockFree.initial c : State A V T).memory.node c.tail =
      ⟨MAX_LEVEL, INT_MAX, INT_MAX, none⟩ := if_neg c.distinct.symm
  have hsome : ∀ {n level q}, ((LockFree.initial c : State A V T).memory.next n level).node = some q →
      n = c.head ∧ level < MAX_LEVEL ∧ q = c.tail := by
    intro n level q hq
    rw [hnext] at hq
    split_ifs at hq with hn
    cases hq
    exact ⟨hn.1, hn.2, rfl⟩
  refine ⟨⟨.inl rfl, .inr rfl, hhead, htail, hunmarked _, fun level => ?_, ?_, ?_, ?_, ?_, ?_, ?_⟩, ?_⟩
  · rw [hnext, if_neg fun hn => c.distinct hn.1.symm]
  · intro n level q _ hq
    obtain ⟨-, hlevel, rfl⟩ := hsome hq
    exact ⟨.inr rfl, by rw [htail]; exact hlevel.le, c.distinct.symm⟩
  · intro n q _ hq
    obtain ⟨rfl, -, rfl⟩ := hsome hq
    rw [hhead, htail]
    exact (by decide : INT_MIN ≤ INT_MAX)
  · rintro n (rfl | rfl)
    · rw [hhead]
    · rw [htail]
  · intro n level _ hm
    rw [hunmarked] at hm
    cases hm
  · rintro n level (rfl | rfl) ht hl hlm
    · rw [hnext, if_pos ⟨rfl, hlm⟩]
      simp
    · exact absurd rfl ht
  · rintro n (rfl | rfl) <;> simp [LockFree.initial]
  · rintro n (rfl | rfl) -
    · exact .refl
    · refine Reaches.tail .refl ?_
      rw [Memory.bottom, hnext, if_pos ⟨rfl, by decide⟩]

/-! ### Order -/

lemma is_less_than_iff {x : Node V} : x.is_less_than lb ub = true ↔ x.key_low < ub ∧ x.key_high ≤ lb := by
  rw [Node.is_less_than]
  split_ifs <;> simp_all

lemma is_equal_iff {x : Node V} : x.is_equal lb ub = true ↔ x.key_low < ub ∧ lb < x.key_high := by
  rw [Node.is_equal]
  split_ifs <;> simp_all

lemma not_equal_of_high {x : Node V} (h : x.key_high ≤ lb) : x.is_equal lb ub = false := by
  rw [Bool.eq_false_iff, Ne, is_equal_iff]
  omega

lemma not_equal_of_low {x : Node V} (h : ub ≤ x.key_low) : x.is_equal lb ub = false := by
  rw [Bool.eq_false_iff, Ne, is_equal_iff]
  omega

/-- A node that is neither before a range nor overlaps it is behind it. -/
lemma low_of_not_equal {x : Node V} (hl : x.is_less_than lb ub = false)
    (he : x.is_equal lb ub = false) : ub ≤ x.key_low := by
  by_contra h
  rw [Bool.eq_false_iff, Ne, is_less_than_iff] at hl
  rw [Bool.eq_false_iff, Ne, is_equal_iff] at he
  omega

section Order

variable (h : Links c linked m)

include h

lemma Links.reach_linked (ha : a ∈ linked) (hr : Reaches m.bottom a n) : n ∈ linked := by
  refine Reaches.mem hr ha ?_
  intro _ hx _ hy
  exact (h.target hx hy).linked

lemma Links.le_of_reach (ha : a ∈ linked) (hr : Reaches m.bottom a n) :
    a = n ∨ (m.node a).key_high ≤ (m.node n).key_low :=
  Reaches.le hr ha (fun _ hx _ hy => ⟨(h.target hx hy).linked, h.ordered hx hy⟩) fun _ hx => h.range hx

/-- Two reachable nodes are in order, and their ranges are disjoint. -/
lemma Links.disjoint (ha : Reaches m.bottom c.head a) (hn : Reaches m.bottom c.head n) (hne : a ≠ n) :
    Reaches m.bottom a n ∧ (m.node a).key_high ≤ (m.node n).key_low ∨
      Reaches m.bottom n a ∧ (m.node n).key_high ≤ (m.node a).key_low := by
  rcases reaches_total ha hn with hr | hr
  · exact .inl ⟨hr, (h.le_of_reach (h.reach_linked h.head ha) hr).resolve_left hne⟩
  · exact .inr ⟨hr, (h.le_of_reach (h.reach_linked h.head hn) hr).resolve_left hne.symm⟩

/-- Between two neighbours on the bottom level there is nothing. -/
lemma Links.clear (ha : Reaches m.bottom c.head a) (hq : m.bottom a = some q)
    (hlow : (m.node a).key_high ≤ lb) (hhigh : ub ≤ (m.node q).key_low) : Clear c m lb ub := by
  intro n hn
  have haL := h.reach_linked h.head ha
  have hqL := (h.target haL hq).linked
  rcases reaches_total ha hn.reach with hr | hr
  · rcases Reaches.eq_or_head hr hq with rfl | hr
    · exact not_equal_of_high hlow
    · rcases h.le_of_reach hqL hr with rfl | hle
      · exact not_equal_of_low hhigh
      · have hrange := h.range hqL
        exact not_equal_of_low (by omega)
  · rcases h.le_of_reach (h.reach_linked h.head hn.reach) hr with rfl | hle
    · exact not_equal_of_high hlow
    · have hrange := h.range haL
      exact not_equal_of_high (by omega)

end Order

lemma Shape.live (h : Shape c linked m) (hn : n ∈ linked) (hm : (m.next n 0).marked = false) :
    Live c m n :=
  ⟨h.reach hn hm, hm⟩

lemma Live.mem (hn : Live c m n) (h : Links c linked m) : n ∈ linked :=
  h.reach_linked h.head hn.reach

/-! ### Writes -/

lemma setNext_next (b : A) (k : ℕ) : (m.setNext a level p).next b k =
    if b = a ∧ k = level then p else m.next b k := by
  by_cases hb : b = a
  · subst hb
    by_cases hk : k = level
    · simp [Memory.setNext, hk]
    · simp [Memory.setNext, hk]
  · simp [Memory.setNext, hb]

lemma setNext_self : (m.setNext a level p).next a level = p := by
  rw [setNext_next, if_pos ⟨rfl, rfl⟩]

lemma setNext_other {b : A} {k : ℕ} (hne : ¬ (b = a ∧ k = level)) :
    (m.setNext a level p).next b k = m.next b k := by
  rw [setNext_next, if_neg hne]

lemma bottom_setNext_zero : (m.setNext a 0 p).bottom = Function.update m.bottom a p.node := by
  funext b
  by_cases hb : b = a
  · subst hb
    simp [Memory.bottom, setNext_self]
  · simp [Memory.bottom, setNext_other, hb]

lemma bottom_setNext_succ : (m.setNext a (level + 1) p).bottom = m.bottom := by
  funext b
  rw [Memory.bottom, setNext_other (by simp)]
  rfl

/-- A marked word keeps its pointer. -/
lemma bottom_setNext_mark {s : Option A} {b b' : Bool} (h : m.next a level = ⟨s, b⟩) :
    (m.setNext a level ⟨s, b'⟩).bottom = m.bottom := by
  cases level with
  | zero =>
    rw [bottom_setNext_zero, Function.update_eq_self_iff, Memory.bottom, h]
  | succ level => exact bottom_setNext_succ

/-- A write to an unmarked word of a linked node. -/
lemma Links.setNext (h : Links c linked m) (ha : a ∈ linked) (hold : (m.next a level).marked = false)
    (ht : a ≠ c.tail) (hh : a = c.head → p.marked = false)
    (htarget : ∀ q, p.node = some q → Target c linked m level q)
    (hord : level = 0 → ∀ q, p.node = some q → (m.node a).key_high ≤ (m.node q).key_low)
    (hmark : level = 0 → p.marked → ∀ k, 1 ≤ k → k ≤ (m.node a).topLevel → (m.next a k).marked)
    (hwhole : p.node = none → (m.next a level).node = none) :
    Links c linked (m.setNext a level p) where
  head := h.head
  tail := h.tail
  head_node := h.head_node
  tail_node := h.tail_node
  head_unmarked k := by
    rw [setNext_next]
    split_ifs with hk
    · exact hh hk.1.symm
    · exact h.head_unmarked k
  tail_next k := by
    rw [setNext_other fun hk => ht hk.1.symm]
    exact h.tail_next k
  target {n k q} hn hq := by
    rw [setNext_next] at hq
    split_ifs at hq with hk
    · obtain ⟨rfl, rfl⟩ := hk
      exact ⟨(htarget q hq).linked, (htarget q hq).level, (htarget q hq).not_head⟩
    · exact ⟨(h.target hn hq).linked, (h.target hn hq).level, (h.target hn hq).not_head⟩
  ordered {n q} hn hq := by
    rw [Memory.bottom, setNext_next] at hq
    split_ifs at hq with hk
    · obtain ⟨rfl, hlevel⟩ := hk
      exact hord hlevel.symm q hq
    · exact h.ordered hn hq
  range hn := h.range hn
  marks {n k} hn hm hk := by
    by_cases hk' : n = a ∧ k = level
    · obtain ⟨rfl, rfl⟩ := hk'
      rw [setNext_self]
      by_cases hz : k = 0
      · subst hz
        rwa [setNext_self] at hm
      · rw [setNext_other fun h0 => hz h0.2.symm] at hm
        have hmarked := h.marks hn hm hk
        rw [hold] at hmarked
        cases hmarked
    · rw [setNext_other hk']
      by_cases h0 : n = a ∧ 0 = level
      · obtain ⟨rfl, rfl⟩ := h0
        rw [setNext_self] at hm
        have hk0 : k ≠ 0 := fun hz => hk' ⟨rfl, hz⟩
        exact hmark rfl hm k (by omega) hk
      · rw [setNext_other h0] at hm
        exact h.marks hn hm hk
  whole {n k} hn hnt hk hkm hnone := by
    rw [setNext_next] at hnone
    split_ifs at hnone with hk'
    · obtain ⟨rfl, rfl⟩ := hk'
      exact h.whole hn hnt hk hkm (hwhole hnone)
    · exact h.whole hn hnt hk hkm hnone
  allocated hn := h.allocated hn

lemma Target.mono {linked' : Set A} (h : Target c linked m level q) (hl : linked ⊆ linked')
    (hq : m'.node q = m.node q) : Target c linked' m' level q :=
  ⟨hl h.linked, by rw [hq]; exact h.level, h.not_head⟩

/-- A private node with all its pointers. -/
lemma Links.insert (h : Links c linked m) (hn : Private c linked m n)
    (hord : ∀ q, m.bottom n = some q → (m.node n).key_high ≤ (m.node q).key_low)
    (hrange : (m.node n).key_low ≤ (m.node n).key_high)
    (hwhole : ∀ level ≤ (m.node n).topLevel, (m.next n level).node ≠ none) :
    Links c (insert n linked) m where
  head := .inr h.head
  tail := .inr h.tail
  head_node := h.head_node
  tail_node := h.tail_node
  head_unmarked := h.head_unmarked
  tail_next := h.tail_next
  target {a level q} ha hq := by
    rcases ha with rfl | ha
    · exact (hn.target hq).mono (Set.subset_insert _ _) rfl
    · exact (h.target ha hq).mono (Set.subset_insert _ _) rfl
  ordered {a q} ha hq := by
    rcases ha with rfl | ha
    · exact hord q hq
    · exact h.ordered ha hq
  range {a} ha := by
    rcases ha with rfl | ha
    · exact hrange
    · exact h.range ha
  marks {a level} ha hm hl := by
    rcases ha with rfl | ha
    · rw [hn.unmarked] at hm
      cases hm
    · exact h.marks ha hm hl
  whole {a level} ha hat hl hlm := by
    rcases ha with rfl | ha
    · exact hwhole level hl
    · exact h.whole ha hat hl hlm
  allocated {a} ha := by
    rcases ha with rfl | ha
    · exact hn.allocated
    · exact h.allocated ha

/-- An unlinked word on a level says that the node is not marked on the bottom level. -/
lemma Links.bottom_unmarked (h : Links c linked m) (hn : n ∈ linked)
    (hl : level ≤ (m.node n).topLevel) (hm : (m.next n level).marked = false) :
    (m.next n 0).marked = false := by
  cases hb : (m.next n 0).marked with
  | false => rfl
  | true =>
    rw [h.marks hn hb hl] at hm
    cases hm

lemma Links.not_tail (h : Links c linked m) (hw : m.next a level = ⟨some q, false⟩) : a ≠ c.tail := by
  rintro rfl
  rw [h.tail_next] at hw
  cases hw

lemma Links.unmarked_sentinel (h : Links c linked m) (hw : (m.next a level).marked) :
    a ≠ c.head ∧ a ≠ c.tail := by
  constructor
  · rintro rfl
    rw [h.head_unmarked] at hw
    cases hw
  · rintro rfl
    rw [h.tail_next] at hw
    cases hw

/-- The CAS of `find` that takes out a marked node. -/
lemma Shape.snip (h : Shape c linked m) (ha : a ∈ linked) (hq : Target c linked m level q)
    (hmax : level < MAX_LEVEL) {s : Option A} (hw : m.next a level = ⟨some q, false⟩)
    (hs : m.next q level = ⟨s, true⟩) : Shape c linked (m.setNext a level ⟨s, false⟩) where
  toLinks := by
    have hqs := h.unmarked_sentinel (show (m.next q level).marked by rw [hs])
    refine h.setNext ha (by rw [hw]) (h.not_tail hw) (fun _ => rfl) ?_ ?_ (by simp) ?_
    · rintro x rfl
      exact h.target hq.linked (by rw [hs])
    · rintro rfl x rfl
      have h₁ := h.ordered ha (show m.bottom a = some q by rw [Memory.bottom, hw])
      have h₂ := h.ordered hq.linked (show m.bottom q = some x by rw [Memory.bottom, hs])
      exact h₁.trans ((h.range hq.linked).trans h₂)
    · rintro rfl
      exact absurd (by rw [hs]) (h.whole hq.linked hqs.2 hq.level hmax)
  reach {n} hn hm := by
    cases level with
    | zero =>
      have hne : n ≠ q := by
        rintro rfl
        rw [setNext_next] at hm
        split_ifs at hm with hna
        · rw [← hna.1, hs] at hw
          cases hw
        · rw [hs] at hm
          cases hm
      have hold : (m.next n 0).marked = false := by
        rw [setNext_next] at hm
        split_ifs at hm with hna
        · rw [hna.1, hw]
        · exact hm
      rw [bottom_setNext_zero]
      have hb := Reaches.bypass (h.reach hn hold) (show m.bottom a = some q by rw [Memory.bottom, hw])
        (show m.bottom q = s by rw [Memory.bottom, hs])
      exact hb.resolve_right fun hnq => hne hnq.1
    | succ level =>
      rw [bottom_setNext_succ]
      rw [setNext_other (by simp)] at hm
      exact h.reach hn hm

/-- The CAS of `insert` on an upper level. -/
lemma Shape.link (h : Shape c linked m) (ha : a ∈ linked) (hlevel : 1 ≤ level)
    (hn : Target c linked m level n) (hw : m.next a level = ⟨some q, false⟩) :
    Shape c linked (m.setNext a level ⟨some n, false⟩) where
  toLinks := by
    refine h.setNext ha (by rw [hw]) (h.not_tail hw) (fun _ => rfl) ?_ (by omega) (by simp) (by simp)
    rintro x hx
    cases hx
    exact hn
  reach {x} hx hm := by
    obtain ⟨k, rfl⟩ : ∃ k, level = k + 1 := ⟨level - 1, by omega⟩
    rw [bottom_setNext_succ]
    rw [setNext_other (by simp)] at hm
    exact h.reach hx hm

/-- The CAS of `remove` that marks a word. -/
lemma Shape.mark (h : Shape c linked m) (ha : a ∈ linked) (hh : a ≠ c.head) (ht : a ≠ c.tail)
    {s : Option A} (hw : m.next a level = ⟨s, false⟩)
    (habove : level = 0 → ∀ k, 1 ≤ k → k ≤ (m.node a).topLevel → (m.next a k).marked) :
    Shape c linked (m.setNext a level ⟨s, true⟩) where
  toLinks := by
    refine h.setNext ha (by rw [hw]) ht (fun hah => absurd hah hh) ?_ ?_ (fun hz _ => habove hz) ?_
    · rintro x rfl
      exact h.target ha (by rw [hw])
    · rintro rfl x rfl
      exact h.ordered ha (by rw [Memory.bottom, hw])
    · rintro rfl
      rw [hw]
  reach {n} hn hm := by
    rw [bottom_setNext_mark hw]
    refine h.reach hn ?_
    rw [setNext_next] at hm
    split_ifs at hm
    exact hm

/-- The CAS of `insert` on the bottom level. -/
lemma Shape.publish (h : Shape c linked m) (ha : a ∈ linked) (hn : Private c linked m n)
    (hrange : (m.node n).key_low ≤ (m.node n).key_high)
    (hwhole : ∀ level ≤ (m.node n).topLevel, (m.next n level).node ≠ none)
    (hw : m.next a 0 = ⟨some q, false⟩) (hnw : m.next n 0 = ⟨some q, false⟩)
    (hlow : (m.node a).key_high ≤ (m.node n).key_low)
    (hhigh : (m.node n).key_high ≤ (m.node q).key_low) :
    Shape c (insert n linked) (m.setNext a 0 ⟨some n, false⟩) where
  toLinks := by
    have hins := h.toLinks.insert hn (fun x hx => by
      rw [Memory.bottom, hnw] at hx
      cases hx
      exact hhigh) hrange hwhole
    have hnh : n ≠ c.head := by
      rintro rfl
      exact hn.not_linked h.head
    refine hins.setNext (.inr ha) (by rw [hw]) (h.not_tail hw) (fun _ => rfl) ?_ ?_ (by simp) (by simp)
    · rintro x hx
      cases hx
      exact ⟨.inl rfl, Nat.zero_le _, hnh⟩
    · rintro - x hx
      cases hx
      exact hlow
  reach {x} hx hm := by
    have hne : n ≠ a := by
      rintro rfl
      exact hn.not_linked ha
    have hreach : ∀ {y}, Reaches m.bottom c.head y →
        Reaches (m.setNext a 0 ⟨some n, false⟩).bottom c.head y := by
      intro y hy
      rw [bottom_setNext_zero]
      exact Reaches.insert hy (s := q) (by rw [Memory.bottom, hw]) (by rw [Memory.bottom, hnw]) hne
    rcases hx with rfl | hx
    · refine Reaches.tail (hreach (h.reach ha (by rw [hw]))) ?_
      rw [Memory.bottom, setNext_self]
    · refine hreach (h.reach hx ?_)
      rw [setNext_next] at hm
      split_ifs at hm with hxa
      · rw [hxa.1, hw]
      · exact hm

/-- Memory that differs only outside the list. -/
lemma Shape.congr (h : Shape c linked m) (hnode : ∀ n ∈ linked, m'.node n = m.node n)
    (hnext : ∀ n ∈ linked, m'.next n = m.next n) (ha : m.allocated ⊆ m'.allocated) :
    Shape c linked m' where
  head := h.head
  tail := h.tail
  head_node := (hnode _ h.head).trans h.head_node
  tail_node := (hnode _ h.tail).trans h.tail_node
  head_unmarked level := by
    rw [hnext _ h.head]
    exact h.head_unmarked level
  tail_next level := by
    rw [hnext _ h.tail]
    exact h.tail_next level
  target {n level q} hn hq := by
    rw [hnext n hn] at hq
    have ht := h.target hn hq
    exact ht.mono subset_rfl (hnode q ht.linked)
  ordered {n q} hn hq := by
    rw [Memory.bottom, hnext n hn] at hq
    rw [hnode n hn, hnode q (h.target hn hq).linked]
    exact h.ordered hn hq
  range {n} hn := by
    rw [hnode n hn]
    exact h.range hn
  marks {n level} hn hm hl := by
    rw [hnext n hn] at hm ⊢
    rw [hnode n hn] at hl
    exact h.marks hn hm hl
  whole {n level} hn ht hl hlm := by
    rw [hnode n hn] at hl
    rw [hnext n hn]
    exact h.whole hn ht hl hlm
  allocated hn := ha (h.allocated hn)
  reach {n} hn hm := by
    rw [hnext n hn] at hm
    refine Reaches.congr (h.reach hn hm) h.head (fun x hx y hy => (h.target hx hy).linked)
      fun x hx => ?_
    rw [Memory.bottom, hnext x hx]
    rfl

end ObjectCache.LockFree
