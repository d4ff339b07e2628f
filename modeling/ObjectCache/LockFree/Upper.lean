import ObjectCache.LockFree.Invariant

/-! The upper levels of the skip list: what a node leads to over marked nodes is behind it. -/

set_option linter.unusedSectionVars false

namespace ObjectCache.LockFree

open Lib StateTransition

variable {A V T : Type} [DecidableEq A] [DecidableEq T] {c : Config A} {linked : Set A}
  {m m' : Memory A V} {a n q x : A} {level : ℕ}

/-- The nodes that a node leads to on a level, over nodes that are marked there. -/
inductive Leads (m : Memory A V) (level : ℕ) (n : A) : A → Prop
  | next {q : A} : (m.next n level).node = some q → Leads m level n q
  | skip {x q : A} : Leads m level n x → (m.next x level).marked → (m.next x level).node = some q →
    Leads m level n q

/-- What a node leads to is behind it, unless it is marked on the bottom level. -/
def Sorted (linked : Set A) (m : Memory A V) : Prop :=
  ∀ level, ∀ n ∈ linked, level ≤ (m.node n).topLevel → ∀ q, Leads m level n q →
    (m.next q 0).marked = false → (m.node n).key_high ≤ (m.node q).key_low

lemma Leads.cons (hn : (m.next n level).node = some x) (hx : (m.next x level).marked)
    (h : Leads m level x q) : Leads m level n q := by
  induction h with
  | next hq => exact .skip (.next hn) hx hq
  | skip _ hy hq ih => exact .skip ih hy hq

lemma Leads.head (h : Leads m level n q) : (m.next n level).node = some q ∨
    ∃ x, (m.next n level).node = some x ∧ (m.next x level).marked ∧ Leads m level x q := by
  induction h with
  | next hq => exact .inl hq
  | @skip y q _ hy hq ih =>
    rcases ih with hn | ⟨x, hn, hx, hxy⟩
    · exact .inr ⟨y, hn, hy, .next hq⟩
    · exact .inr ⟨x, hn, hx, .skip hxy hy hq⟩

lemma Leads.target (h : Leads m level n q) (hl : Links c linked m) (hn : n ∈ linked) :
    Target c linked m level q := by
  induction h with
  | next hq => exact hl.target hn hq
  | skip _ _ hq ih => exact hl.target ih.linked hq

lemma Leads.mem (h : Leads m level n q) (hl : Links c linked m) (hn : n ∈ linked) : q ∈ linked :=
  (h.target hl hn).linked

/-- On the bottom level the pointers themselves are in order. -/
lemma Leads.ordered (h : Leads m 0 n q) (hl : Links c linked m) (hn : n ∈ linked) :
    (m.node n).key_high ≤ (m.node q).key_low := by
  induction h with
  | next hq => exact hl.ordered hn hq
  | @skip y q hy _ hq ih =>
    have hmem := Leads.mem hy hl hn
    exact ih.trans ((hl.range hmem).trans (hl.ordered hmem hq))

/-- Nothing changes for the linked nodes on the level. -/
lemma Leads.congr (h : Leads m' level n q) (hl : Links c linked m) (hn : n ∈ linked)
    (hsame : ∀ y ∈ linked, m'.next y level = m.next y level) : Leads m level n q := by
  induction h with
  | next hq => exact .next (by rwa [hsame n hn] at hq)
  | @skip y q _ hy hq ih =>
    have hmem := Leads.mem ih hl hn
    rw [hsame y hmem] at hy hq
    exact .skip ih hy hq

lemma Leads.same (h : Leads m' level n q) (hsame : ∀ y, m'.next y level = m.next y level) :
    Leads m level n q := by
  induction h with
  | next hq => exact .next (by rwa [hsame n] at hq)
  | @skip y q _ hy hq ih =>
    rw [hsame y] at hy hq
    exact .skip ih hy hq

/-! ### Writes to a level -/

lemma Leads.of_snip {s : Option A} (hw : m.next a level = ⟨some x, false⟩)
    (hs : m.next x level = ⟨s, true⟩) (h : Leads (m.setNext a level ⟨s, false⟩) level n q) :
    Leads m level n q := by
  have hword : ∀ {y z : A}, ((m.setNext a level ⟨s, false⟩).next y level).node = some z →
      (m.next y level).node = some z ∨ y = a ∧ s = some z := by
    intro y z hz
    rw [setNext_next] at hz
    split_ifs at hz with hy
    · exact .inr ⟨hy.1, hz⟩
    · exact .inl hz
  have hstart : ∀ {z : A}, s = some z → Leads m level a z := fun hz =>
    .skip (.next (by rw [hw])) (by rw [hs]) (by rw [hs, hz])
  induction h with
  | next hq =>
    rcases hword hq with hold | ⟨rfl, hnew⟩
    · exact .next hold
    · exact hstart hnew
  | @skip y z _ hy hz ih =>
    have hya : y ≠ a := by
      rintro rfl
      rw [setNext_self] at hy
      cases hy
    rw [setNext_other fun h => hya h.1] at hy hz
    exact .skip ih hy hz

lemma Leads.of_mark {s : Option A} (hw : m.next a level = ⟨s, false⟩)
    (h : Leads (m.setNext a level ⟨s, true⟩) level n q) :
    Leads m level n q ∨ Leads m level n a ∧ Leads m level a q := by
  have hnode : ∀ y, ((m.setNext a level ⟨s, true⟩).next y level).node = (m.next y level).node := by
    intro y
    rw [setNext_next]
    split_ifs with hy
    · rw [hy.1, hw]
    · rfl
  induction h with
  | next hq =>
    rw [hnode] at hq
    exact .inl (.next hq)
  | @skip y z _ hy hz ih =>
    rw [hnode] at hz
    by_cases hya : y = a
    · subst hya
      rcases ih with ih | ⟨ih, -⟩
      · exact .inr ⟨ih, .next hz⟩
      · exact .inr ⟨ih, .next hz⟩
    · rw [setNext_other fun h => hya h.1] at hy
      rcases ih with ih | ⟨iha, ihy⟩
      · exact .inl (.skip ih hy hz)
      · exact .inr ⟨iha, .skip ihy hy hz⟩

lemma Leads.of_link {y s : A} (hw : m.next a level = ⟨some s, false⟩)
    (h : Leads (m.setNext a level ⟨some n, false⟩) level y q) :
    y ≠ a ∧ Leads m level y q ∨ y = a ∧ (q = n ∨ Leads m level n q) := by
  induction h with
  | next hq =>
    by_cases hy : y = a
    · subst hy
      rw [setNext_self] at hq
      exact .inr ⟨rfl, .inl (Option.some.inj hq).symm⟩
    · rw [setNext_other fun h => hy h.1] at hq
      exact .inl ⟨hy, .next hq⟩
  | @skip w z _ hm hz ih =>
    have hwa : w ≠ a := by
      rintro rfl
      rw [setNext_self] at hm
      cases hm
    rw [setNext_other fun h => hwa h.1] at hm hz
    rcases ih with ⟨hy, ih⟩ | ⟨hy, rfl | ih⟩
    · exact .inl ⟨hy, .skip ih hm hz⟩
    · exact .inr ⟨hy, .inr (.next hz)⟩
    · exact .inr ⟨hy, .inr (.skip ih hm hz)⟩

/-! ### What an insert knows of the levels -/

/-- The two nodes of a level are on the sides of the range where `find` leaves them. -/
def Around (m : Memory A V) (v : Vars A V) (level : ℕ) : Prop :=
  (m.node (v.preds level)).key_high ≤ v.op.key_lb ∧
    (m.node (v.succs level)).is_less_than v.op.key_lb v.op.key_ub = false

/-- The level from which on the arrays are filled. -/
def Pc.filled : Pc A V → Option ℕ
  | .load _ level _ | .next _ level _ _ | .snip _ level _ _ _ => some (level + 1)
  | .store _ _ | .linkBottom _ | .link _ _ => some 0
  | _ => none

def Bounded (m : Memory A V) (l : Local A V) : Prop :=
  ∀ start, l.pc.filled = some start → ∀ k, start ≤ k → k < MAX_LEVEL → Around m l.toVars k

structure Upper {c : Config A} (r : Trace c V T) (i : ℕ) : Prop where
  bounded : ∀ t, Bounded (r.memory i) ((r.state i).thread t)
  sorted : Sorted (r.linked i) (r.memory i)
  nonempty : ∀ n ∈ r.linked i, n ≠ c.head → n ≠ c.tail →
    ((r.memory i).node n).key_low < ((r.memory i).node n).key_high

variable {r : Trace c V T} {i : ℕ} {t : T} {v : Vars A V}

lemma PcOk.filled {pc : Pc A V} {start : ℕ} (h : PcOk r t i v pc) (hs : pc.filled = some start) :
    Arrays r i v start := by
  cases pc with
  | load site level pred =>
    cases hs
    exact h.arrays
  | next site level pred curr =>
    cases hs
    exact h.1.arrays
  | snip site level pred curr succ =>
    cases hs
    exact h.1.arrays
  | store newNode level =>
    cases hs
    exact h.2.1.arrays
  | linkBottom newNode =>
    cases hs
    exact h.2.1.arrays
  | link newNode level =>
    cases hs
    exact h.2
  | _ => cases hs

lemma Around.frame (h : Around (r.memory i) v level) (hc : Carries r i) {start : ℕ}
    (ha : Arrays r i v start) (hs : start ≤ level) (hm : level < MAX_LEVEL) :
    Around (r.memory (i + 1)) v level := by
  rw [Around, hc.same (ha.pred level hs hm).1, hc.same (ha.succ level hs hm).linked]
  exact h

/-- The arrays of a thread stay, or are filled one level further. -/
lemma Bounded.advance {m' : Memory A V} {l l' : Local A V} {spurious : Bool}
    (h : Bounded m l) (hadv : Advance c m l spurious m' l') (hnode : m'.node = m.node)
    (hhigh : ∀ site level pred curr, l.pc = .next site level pred curr →
      (m.node pred).key_high ≤ l.op.key_lb) : Bounded m' l' := by
  have hsame : ∀ {start : ℕ} {pc : Pc A V}, l.pc.filled = some start →
      pc.filled = none ∨ pc.filled = some start ∨ pc.filled = some MAX_LEVEL →
      Bounded m' (l.goto pc) := by
    intro start pc hold hpc from' hfrom k hk hmax
    have hk' := h start hold k
    rcases hpc with hpc | hpc | hpc
    · rw [show (l.goto pc).pc.filled = pc.filled from rfl, hpc] at hfrom
      cases hfrom
    · rw [show (l.goto pc).pc.filled = pc.filled from rfl, hpc] at hfrom
      cases hfrom
      rw [Around, hnode]
      exact hk' hk hmax
    · rw [show (l.goto pc).pc.filled = pc.filled from rfl, hpc] at hfrom
      cases hfrom
      exact absurd hmax (Nat.not_lt.mpr hk)
  have hretry : ∀ site : Site A, (LockFree.retry c site : Pc A V).filled = some MAX_LEVEL := fun _ => rfl
  have habove : ∀ newNode level, (above m newNode level).filled = none ∨
      (above m newNode level).filled = some 0 := by
    intro newNode level
    rw [above]
    split_ifs
    · exact .inr rfl
    · exact .inl rfl
  have hbelow : ∀ node level, (below node level : Pc A V).filled = none := by
    intro node level
    cases level <;> rfl
  have hnone : ∀ {pc : Pc A V}, pc.filled = none → Bounded m' (l.goto pc) := by
    intro pc hpc start hs
    rw [show (l.goto pc).pc.filled = pc.filled from rfl, hpc] at hs
    cases hs
  have hstop : ∀ {site level pred curr}, l.pc = .next site level pred curr →
      (m.node curr).is_less_than l.op.key_lb l.op.key_ub = false →
      ∀ k, level ≤ k → k < MAX_LEVEL → Around m' (l.stop level pred curr) k := by
    intro site level pred curr hpc hless k hk hmax
    rw [Around, hnode]
    by_cases hkl : k = level
    · subst hkl
      simp only [Vars.stop, Function.update_self]
      exact ⟨hhigh site k pred curr hpc, hless⟩
    · simp only [Vars.stop, Function.update_of_ne hkl]
      exact h (level + 1) (by rw [hpc]; rfl) k (by omega) hmax
  cases hadv with
  | load hpc | marked hpc | less hpc | snip hpc =>
    exact hsame (by rw [hpc]; rfl) (.inr (.inl rfl))
  | retry hpc => exact hsame (by rw [hpc]; rfl) (.inr (.inr (hretry _)))
  | down hpc hw hless =>
    intro start hs k hk
    cases hs
    exact hstop hpc hless k hk
  | found hpc hw hless =>
    intro start hs k hk
    exact hstop hpc hless k (Nat.zero_le _)
  | store hpc | stored hpc => exact hsame (by rw [hpc]; rfl) (.inr (.inl rfl))
  | linkBottom hpc | link hpc =>
    refine hsame (by rw [hpc]; rfl) ?_
    rcases habove _ _ with hn | hn
    · exact .inl hn
    · exact .inr (.inl hn)
  | refind hpc | relink hpc => exact hsame (by rw [hpc]; rfl) (.inr (.inr (hretry _)))
  | readMarked hpc => exact hnone (hbelow _ _)
  | mine hpc =>
    intro start hs k hk hmax
    cases hs
    exact absurd hmax (Nat.not_lt.mpr hk)
  | read hpc | mark hpc | remark hpc | readBottom hpc | markBottom hpc | unmarked hpc | other hpc
  | again hpc => exact hnone rfl

/-! ### Every step -/

/-- A step that keeps the pointers of the linked nodes. -/
lemma Sorted.quiet (h : Sorted (r.linked i) (r.memory i)) (hc : Carries r i)
    (hl : r.linked (i + 1) = r.linked i)
    (hsame : ∀ n ∈ r.linked i, (r.memory (i + 1)).next n = (r.memory i).next n) :
    Sorted (r.linked (i + 1)) (r.memory (i + 1)) := by
  rw [hl]
  intro level n hn hlevel q hq hm
  rw [hc.same hn] at hlevel ⊢
  have hold := Leads.congr hq hc.before.toLinks hn fun y hy => congrFun (hsame y hy) level
  have hqmem := Leads.mem hold hc.before.toLinks hn
  rw [hsame q hqmem] at hm
  rw [hc.same hqmem]
  exact h level n hn hlevel q hold hm

/-- A write on one level, given what is behind a node on this level afterwards. -/
lemma Sorted.write {p : Ptr A} (h : Sorted (r.linked i) (r.memory i)) (hc : Carries r i)
    (hl : r.linked (i + 1) = r.linked i) (hm : r.memory (i + 1) = (r.memory i).setNext a level p)
    (hold : ((r.memory i).next a level).marked = false)
    (hsorted : 1 ≤ level → ∀ n ∈ r.linked i, level ≤ ((r.memory i).node n).topLevel →
      ∀ q, Leads ((r.memory i).setNext a level p) level n q → ((r.memory i).next q 0).marked = false →
      ((r.memory i).node n).key_high ≤ ((r.memory i).node q).key_low) :
    Sorted (r.linked (i + 1)) (r.memory (i + 1)) := by
  intro k n hn hk q hq hq0
  cases k with
  | zero => exact Leads.ordered hq hc.after.toLinks hn
  | succ k =>
    rw [hl] at hn
    have hqmem : q ∈ r.linked i := by
      have := Leads.mem hq hc.after.toLinks (linked_mono hn)
      rwa [hl] at this
    rw [hc.same hn] at hk ⊢
    rw [hc.same hqmem]
    have hq0' : ((r.memory i).next q 0).marked = false := by
      rw [hm, setNext_next] at hq0
      split_ifs at hq0 with hqa
      · obtain ⟨rfl, rfl⟩ := hqa
        exact hold
      · exact hq0
    by_cases hkl : k + 1 = level
    · subst hkl
      rw [hm] at hq
      exact hsorted (Nat.succ_pos k) n hn hk q hq hq0'
    · refine h (k + 1) n hn hk q (Leads.congr hq hc.before.toLinks hn fun y _ => ?_) hq0'
      rw [hm, setNext_other fun h => hkl h.2]

/-- The pointers of a node that is linked when nothing overlaps it lead behind it. -/
lemma Sorted.publish (h : Sorted (r.linked i) (r.memory i)) (hs : Shape c (r.linked i) (r.memory i))
    {s : A} (hq : Leads (r.memory i) level n q) (hn : ((r.memory i).next n level).node = some s)
    (ht : Target c (r.linked i) (r.memory i) level s)
    (hless : ((r.memory i).node s).is_less_than ((r.memory i).node n).key_low
      ((r.memory i).node n).key_high = false)
    (hclear : Clear c (r.memory i) ((r.memory i).node n).key_low ((r.memory i).node n).key_high)
    (hq0 : ((r.memory i).next q 0).marked = false) :
    ((r.memory i).node n).key_high ≤ ((r.memory i).node q).key_low := by
  have hqmem : q ∈ r.linked i := by
    rcases hq.head with hqn | ⟨x, hx, -, hxq⟩
    · rw [hn, Option.some.injEq] at hqn
      exact hqn ▸ ht.linked
    · rw [hn, Option.some.injEq] at hx
      exact Leads.mem (hx ▸ hxq) hs.toLinks ht.linked
  have hequal := hclear q (hs.live hqmem hq0)
  rcases hq.head with hqn | ⟨x, hx, hxm, hxq⟩
  · rw [hn, Option.some.injEq] at hqn
    exact low_of_not_equal (hqn ▸ hless) hequal
  · rw [hn, Option.some.injEq] at hx
    subst hx
    have hbehind := h level s ht.linked ht.level q hxq hq0
    have hrange := hs.range hqmem
    have hsrange := hs.range ht.linked
    rw [Bool.eq_false_iff, Ne, is_less_than_iff] at hless
    rw [Bool.eq_false_iff, Ne, is_equal_iff] at hequal
    by_contra hlow
    exact hequal ⟨by omega, by omega⟩

/-- The bottom link of an insert succeeds only where no live node overlaps. -/
lemma Gap.clear (hg : Gap r i v) (hs : Shape c (r.linked i) (r.memory i))
    (hw : (r.memory i).next (v.preds 0) 0 = ⟨some (v.succs 0), false⟩) :
    Clear c (r.memory i) v.op.key_lb v.op.key_ub := by
  have hpred := (hg.arrays.pred 0 le_rfl (by decide)).1
  have hlive := hs.live hpred (by rw [hw])
  exact hs.clear hlive.reach (by rw [Memory.bottom, hw]) hg.low hg.high

section Step

variable (h : Inv r i) (hc : Carries r i) (hu : Upper r i) {spurious : Bool}
  (ha : r.act i = .next t spurious)

include h hc hu ha

lemma Upper.sorted_linkBottom (hpc : ((r.state i).thread t).pc = .linkBottom n)
    (hcas : cas (r.memory i) spurious (((r.state i).thread t).preds 0) 0
      (some (((r.state i).thread t).succs 0)))
    (hm : r.memory (i + 1) =
      (r.memory i).setNext (((r.state i).thread t).preds 0) 0 ⟨some n, false⟩) :
    Sorted (r.linked (i + 1)) (r.memory (i + 1)) := by
  have hok := h.ok t
  rw [hpc] at hok
  obtain ⟨hn, hg, hw⟩ := hok
  have hword := next_of_cas hcas
  have hl : links (r.state i) (r.act i) = some n := by simp [ha, links, hpc, hcas]
  have hlinked := linked_succ_some hl
  have hop := hn.op
  have hclear := hg.clear h.shape hword
  intro level x hx hlevel q hq hq0
  cases level with
  | zero => exact Leads.ordered hq hc.after.toLinks hx
  | succ level =>
    have hsame : ∀ y, (r.memory (i + 1)).next y (level + 1) = (r.memory i).next y (level + 1) := by
      intro y
      rw [hm, setNext_other fun h => Nat.succ_ne_zero level h.2]
    have hold := Leads.same hq hsame
    have hnode : (r.memory (i + 1)).node = (r.memory i).node := by
      rw [hm]
      rfl
    have hq0' : ((r.memory i).next q 0).marked = false := by
      rw [hm, setNext_next] at hq0
      split_ifs at hq0 with hqa
      · rw [hqa.1, hword]
      · exact hq0
    rw [hnode] at hlevel ⊢
    rw [hlinked] at hx
    rcases hx with rfl | hx
    · have hmax : level + 1 < MAX_LEVEL := lt_of_le_of_lt hlevel hn.top
      have harrays := hg.arrays.succ (level + 1) (Nat.zero_le _) hmax
      have haround := hu.bounded t 0 (by rw [hpc]; rfl) (level + 1) (Nat.zero_le _) hmax
      rw [hop] at hclear
      rw [Around, hop] at haround
      exact hu.sorted.publish h.shape hold (by rw [hw _ hlevel]) harrays haround.2 hclear hq0'
    · exact hu.sorted (level + 1) x hx hlevel q hold hq0'

lemma Upper.sorted_link (hpc : ((r.state i).thread t).pc = .link n level)
    (hw : (r.memory i).next (((r.state i).thread t).preds level) level =
      ⟨some (((r.state i).thread t).succs level), false⟩)
    (hm : r.memory (i + 1) =
      (r.memory i).setNext (((r.state i).thread t).preds level) level ⟨some n, false⟩) :
    Sorted (r.linked (i + 1)) (r.memory (i + 1)) := by
  have hok := h.ok t
  rw [hpc] at hok
  obtain ⟨⟨hn, -, htop⟩, -⟩ := hok
  have hl : links (r.state i) (r.act i) = none := by simp [ha, links, hpc]
  refine hu.sorted.write hc (linked_succ_none hl) hm (by rw [hw]) fun _ x hx hlevel q hq hq0 => ?_
  have hnlinked := (hn.target level htop).linked
  have hpred := (hu.bounded t 0 (by rw [hpc]; rfl) level (Nat.zero_le _)
    (lt_of_le_of_lt htop hn.top)).1
  rw [hn.op] at hpred
  rcases Leads.of_link hw hq with ⟨-, hold⟩ | ⟨rfl, rfl | hold⟩
  · exact hu.sorted level x hx hlevel q hold hq0
  · exact hpred
  · exact hpred.trans ((h.shape.range hnlinked).trans
      (hu.sorted level n hnlinked htop q hold hq0))

lemma Upper.sorted_mark {s : Option A} (hl : links (r.state i) (r.act i) = none)
    (hlinked : a ∈ r.linked i) (hw : (r.memory i).next a level = ⟨s, false⟩)
    (hm : r.memory (i + 1) = (r.memory i).setNext a level ⟨s, true⟩) :
    Sorted (r.linked (i + 1)) (r.memory (i + 1)) := by
  refine hu.sorted.write hc (linked_succ_none hl) hm (by rw [hw]) fun _ x hx hxlevel q hq hq0 => ?_
  rcases Leads.of_mark hw hq with hold | ⟨hxa, haq⟩
  · exact hu.sorted level x hx hxlevel q hold hq0
  · have hlevel := (hxa.target h.shape.toLinks hx).level
    have ha0 := h.shape.bottom_unmarked hlinked hlevel (by rw [hw])
    exact (hu.sorted level x hx hxlevel a hxa ha0).trans ((h.shape.range hlinked).trans
      (hu.sorted level a hlinked hlevel q haq hq0))

lemma Upper.sorted_advance {m' : Memory A V} {l' : Local A V}
    (hs : r.state (i + 1) = (r.state i).put m' t l')
    (hadv : Advance c (r.memory i) ((r.state i).thread t) spurious m' l') :
    Sorted (r.linked (i + 1)) (r.memory (i + 1)) := by
  have hm := memory_succ hs
  have hquiet : links (r.state i) (.next t spurious) = none → m' = r.memory i →
      Sorted (r.linked (i + 1)) (r.memory (i + 1)) := by
    intro hl hm'
    refine hu.sorted.quiet hc (linked_succ_none (by rw [ha]; exact hl)) fun n _ => ?_
    rw [hm, hm']
  have hstore : ∀ {n level k}, ((r.state i).thread t).pc = .store n k →
      m' = (r.memory i).setNext n level ⟨some (((r.state i).thread t).succs level), false⟩ →
      Sorted (r.linked (i + 1)) (r.memory (i + 1)) := by
    intro n level k hpc hm'
    have hn := (h.private (t := t) (n := n) (by rw [hpc]; rfl)).not_linked
    refine hu.sorted.quiet hc (linked_succ_none (by simp [ha, links, hpc])) fun y hy => ?_
    rw [hm, hm']
    refine funext fun k => setNext_other fun h => hn ?_
    rw [← h.1]
    exact hy
  cases hadv with
  | load hpc | marked hpc | less hpc | down hpc | found hpc | retry hpc | relink hpc | readMarked hpc
  | read hpc | remark hpc | readBottom hpc | unmarked hpc | mine hpc | other hpc | again hpc =>
    exact hquiet (by simp [links, hpc]) rfl
  | refind hpc hcas =>
    refine hquiet ?_ rfl
    simp only [links, hpc]
    rw [if_neg hcas]
  | @snip site level pred curr succ hpc hw =>
    have hok := h.ok t
    rw [hpc] at hok
    obtain ⟨-, -, hword⟩ := hok
    refine hu.sorted.write hc (linked_succ_none (by simp [ha, links, hpc])) hm (by rw [hw])
      fun _ x hx hlevel q hq hq0 => ?_
    exact hu.sorted level x hx hlevel q (Leads.of_snip hw hword hq) hq0
  | store hpc | stored hpc => exact hstore hpc rfl
  | linkBottom hpc hcas => exact hu.sorted_linkBottom h hc ha hpc hcas hm
  | link hpc hw => exact hu.sorted_link h hc ha hpc hw hm
  | mark hpc hw =>
    have hok := h.ok t
    rw [hpc] at hok
    exact hu.sorted_mark h hc ha (by simp [ha, links, hpc]) hok.1.linked hw hm
  | markBottom hpc hcas =>
    have hok := h.ok t
    rw [hpc] at hok
    exact hu.sorted_mark h hc ha (by simp [ha, links, hpc]) hok.1.linked (next_of_cas hcas) hm

end Step

/-- The threads that do not take a step. -/
lemma Upper.bounded_other (hu : Upper r i) (h : Inv r i) (hc : Carries r i) {m' : Memory A V}
    {l' : Local A V} (hs : r.state (i + 1) = (r.state i).put m' t l') {u : T} (hut : u ≠ t) :
    Bounded (r.memory (i + 1)) ((r.state (i + 1)).thread u) := by
  rw [thread_other hs hut]
  intro start hstart k hk hmax
  exact (hu.bounded u start hstart k hk hmax).frame hc ((h.ok u).filled hstart) hk hmax

/-- A thread that has filled nothing. -/
lemma bounded_of_empty {l : Local A V}
    (h : l.pc.filled = none ∨ l.pc.filled = some MAX_LEVEL) : Bounded m l := by
  intro start hs k hk hmax
  rcases h with h | h <;> rw [h] at hs <;> cases hs
  exact absurd hmax (Nat.not_lt.mpr hk)

lemma Upper.put (hu : Upper r i) (h : Inv r i) (hc : Carries r i) {m' : Memory A V}
    {l' : Local A V} (hs : r.state (i + 1) = (r.state i).put m' t l')
    (hl : Bounded (r.memory (i + 1)) l') (hsorted : Sorted (r.linked (i + 1)) (r.memory (i + 1)))
    (hnew : ∀ n, links (r.state i) (r.act i) = some n →
      ((r.memory i).node n).key_low < ((r.memory i).node n).key_high ∧ n ∈ (r.memory i).allocated) :
    Upper r (i + 1) where
  bounded u := by
    by_cases hut : u = t
    · rw [hut, thread_self hs]
      exact hl
    · exact hu.bounded_other h hc hs hut
  sorted := hsorted
  nonempty n hn hhead htail := by
    rcases hn with hn | hn
    · obtain ⟨hlt, hmem⟩ := hnew n hn
      rw [hc.node n hmem]
      exact hlt
    · rw [hc.same hn]
      exact hu.nonempty n hn hhead htail

/-- A step that is not the bottom link of an insert. -/
lemma Upper.quiet (hu : Upper r i) (h : Inv r i) (hc : Carries r i) {m' : Memory A V}
    {l' : Local A V} (hs : r.state (i + 1) = (r.state i).put m' t l')
    (hl : Bounded (r.memory (i + 1)) l') (hlinks : links (r.state i) (r.act i) = none)
    (hsame : ∀ n ∈ r.linked i, (r.memory (i + 1)).next n = (r.memory i).next n) : Upper r (i + 1) := by
  refine hu.put h hc hs hl (hu.sorted.quiet hc (linked_succ_none hlinks) hsame) fun n hn => ?_
  rw [hlinks] at hn
  cases hn

lemma upper_step (hu : Upper r i) (h : Inv r i) (hc : Carries r i) {a : Act A V T} {s : State A V T}
    (ha : r.act i = a) (hs : r.state (i + 1) = s) (hstep : Step c (r.state i) a s) :
    Upper r (i + 1) := by
  cases hstep with
  | @call t op hpc hop =>
    refine hu.quiet h hc hs (bounded_of_empty ?_) (by rw [ha]; rfl) fun n _ => ?_
    · cases op with
      | insert => exact .inl rfl
      | find | remove => exact .inr rfl
    · rw [memory_succ hs]
  | @allocate t n topLevel lb ub x hpc hop hn htop =>
    refine hu.quiet h hc hs (bounded_of_empty (.inr rfl)) (by rw [ha]; rfl) fun y hy => ?_
    rw [memory_succ hs]
    refine Function.update_of_ne ?_ ..
    rintro rfl
    exact hn (h.shape.allocated hy)
  | @next t spurious m' l' hadv =>
    have hadv' : Advance c (r.memory i) ((r.state i).thread t) spurious (r.memory (i + 1)) l' := by
      rw [memory_succ hs]
      exact hadv
    refine hu.put h hc hs ((hu.bounded t).advance hadv' ?_ ?_) (hu.sorted_advance h hc ha hs hadv) ?_
    · rw [memory_succ hs]
      cases hadv <;> rfl
    · intro site level pred curr hpc
      have hok := h.ok t
      rw [hpc] at hok
      exact hok.1.high
    · intro n hn
      rw [ha] at hn
      simp only [links] at hn
      split at hn
      · rename_i newNode hpc
        split_ifs at hn
        cases hn
        have hok := h.ok t
        rw [hpc] at hok
        exact ⟨(h.legal t).range _ _ _ hok.1.op, hok.1.own.allocated⟩
      · cases hn
  | @ret t ret hpc =>
    refine hu.quiet h hc hs (bounded_of_empty (.inl rfl)) (by rw [ha]; rfl) fun n _ => ?_
    rw [memory_succ hs]

lemma upper_initial (hs : r.state 0 = initial c) : Upper r 0 := by
  refine ⟨fun t => bounded_of_empty (.inl (by rw [hs]; rfl)), ?_, ?_⟩
  swap
  · rintro n (rfl | rfl) hhead htail
    · exact absurd rfl hhead
    · exact absurd rfl htail
  intro level n hn hlevel q hq _
  have hshape : Shape c (r.linked 0) (r.memory 0) := (inv_initial hs).shape
  have hword : ∀ {y z : A}, ((r.memory 0).next y level).node = some z → y = c.head ∧ z = c.tail := by
    intro y z hz
    rw [Trace.memory, hs] at hz
    simp only [initial] at hz
    split_ifs at hz with hy
    cases hz
    exact ⟨hy.1, rfl⟩
  have hend : ∀ {z : A}, Leads (r.memory 0) level n z → n = c.head ∧ z = c.tail := by
    intro z hz
    induction hz with
    | next hz => exact hword hz
    | skip _ _ hz ih => exact ⟨ih.1, (hword hz).2⟩
  obtain ⟨rfl, rfl⟩ := hend hq
  rw [hshape.head_node, hshape.tail_node]
  show INT_MIN ≤ INT_MAX
  decide

theorem upper_of_run (r : Trace c V T) : ∀ i ≤ r.len, Upper r i
  | 0, _ => upper_initial r.start
  | i + 1, hi => upper_step (upper_of_run r i (by omega)) (inv_of_run r i (by omega))
    (carries_of_run r (by omega)) rfl rfl (step_cases (r.next i (by omega)))

end ObjectCache.LockFree
