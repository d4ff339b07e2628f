import ObjectCache.LockFree.Upper

/-! One level of the skip list: the nodes that were linked on it, in order from head, and what a write
to the level leaves reachable. -/

set_option linter.unusedSectionVars false

namespace ObjectCache.LockFree

open Lib StateTransition

variable {A V : Type} [DecidableEq A] {c : Config A} {linked linked' members members' : Set A}
  {m m' : Memory A V} {a n q s x : A} {level : ℕ}

def Memory.lane (m : Memory A V) (level : ℕ) (n : A) : Option A := (m.next n level).node

/-- The level, if every link on it was put before the node that it points to. -/
structure Lane (c : Config A) (linked members : Set A) (m : Memory A V) (level : ℕ) : Prop where
  head : c.head ∈ members
  sub : members ⊆ linked
  target : ∀ {n q}, n ∈ members → m.lane level n = some q → q ∈ members
  ordered : ∀ {n q}, n ∈ members → m.lane level n = some q → (m.node n).key_high ≤ (m.node q).key_low
  reach : ∀ {n}, n ∈ members → (m.next n level).marked = false → Reaches (m.lane level) c.head n

/-- A write to the level, and the nodes that are linked on it afterwards. -/
inductive LaneStep (m m' : Memory A V) (level : ℕ) (members : Set A) : Set A → Prop
  | same (h : ∀ n ∈ members, m'.lane level n = m.lane level n) : LaneStep m m' level members members
  | snip {a x : A} {s : Option A} (ha : a ∈ members) (hw : m.next a level = ⟨some x, false⟩)
    (hx : m.next x level = ⟨s, true⟩) (h : m'.lane level = Function.update (m.lane level) a s) :
    LaneStep m m' level members members
  | link {a n s : A} (ha : a ∈ members) (hw : m.next a level = ⟨some s, false⟩)
    (hn : m.next n level = ⟨some s, false⟩) (hne : n ≠ a)
    (hlow : (m.node a).key_high ≤ (m.node n).key_low)
    (hhigh : (m.node n).key_high ≤ (m.node s).key_low)
    (h : m'.lane level = Function.update (m.lane level) a (some n)) :
    LaneStep m m' level members (insert n members)

lemma Lane.mem (h : Lane c linked members m level) (ha : a ∈ members)
    (hr : Reaches (m.lane level) a n) : n ∈ members :=
  Reaches.mem hr ha fun _ hx _ hy => h.target hx hy

lemma Lane.le (h : Lane c linked members m level) (hl : Links c linked m) (ha : a ∈ members)
    (hr : Reaches (m.lane level) a n) : a = n ∨ (m.node a).key_high ≤ (m.node n).key_low :=
  Reaches.le hr ha (fun _ hx _ hy => ⟨h.target hx hy, h.ordered hx hy⟩) fun _ hx => hl.range (h.sub hx)

/-- Of two nodes on the level the one that is not behind a key comes later. -/
lemma Lane.later (h : Lane c linked members m level) (hl : Links c linked m) {key : ℤ}
    (ha : Reaches (m.lane level) c.head a) (hn : Reaches (m.lane level) c.head n)
    (hlow : (m.node a).key_high ≤ key) (hhigh : key < (m.node n).key_high) :
    Reaches (m.lane level) a n := by
  rcases reaches_total ha hn with hr | hr
  · exact hr
  · rcases h.le hl (h.mem h.head hn) hr with rfl | hle
    · omega
    · have hrange := hl.range (h.sub (h.mem h.head ha))
      omega

/-- A node that is not empty has one predecessor among the reachable nodes. -/
lemma Lane.pred_unique (h : Lane c linked members m level) (hl : Links c linked m) {b : A}
    (ha : Reaches (m.lane level) c.head a) (hb : Reaches (m.lane level) c.head b)
    (hax : m.lane level a = some x) (hbx : m.lane level b = some x)
    (hx : (m.node x).key_low < (m.node x).key_high) : a = b := by
  have hnot : ∀ {y z : A}, y ∈ members → z ∈ members → m.lane level y = some x →
      m.lane level z = some x → Reaches (m.lane level) y z → y = z := by
    intro y z hy hz hyx hzx hr
    rcases Reaches.eq_or_head hr hyx with heq | hr
    · exact heq
    · have hzlow := h.ordered hz hzx
      have hzrange := hl.range (h.sub hz)
      rcases h.le hl (h.target hy hyx) hr with rfl | hle
      · omega
      · omega
  have haM := h.mem h.head ha
  have hbM := h.mem h.head hb
  rcases reaches_total ha hb with hr | hr
  · exact hnot haM hbM hax hbx hr
  · exact (hnot hbM haM hbx hax hr).symm

/-! ### What a write keeps -/

section Step

variable (h : Lane c linked members m level) (hs : LaneStep m m' level members members')

include h hs

lemma LaneStep.mem (hn : n ∈ members) : n ∈ members' := by
  cases hs with
  | same | snip => exact hn
  | link => exact .inr hn

/-- What was reachable stays so, except a node that is cut out. -/
lemma LaneStep.keeps (ha : a ∈ members) (hr : Reaches (m.lane level) a n)
    (hn : (m.next n level).marked = false) : Reaches (m'.lane level) a n := by
  cases hs with
  | same hsame =>
    exact Reaches.congr hr ha (fun _ hx _ hy => h.target hx hy) fun y hy => hsame y hy
  | snip hp hw hx hlane =>
    rw [hlane]
    have hp' := Reaches.bypass hr (show m.lane level _ = some _ by rw [Memory.lane, hw])
      (show m.lane level _ = _ by rw [Memory.lane, hx])
    refine hp'.resolve_right fun hnx => ?_
    rw [hnx.1, hx] at hn
    cases hn
  | link hp hw hnew hne _ _ hlane =>
    rw [hlane]
    exact Reaches.insert hr (show m.lane level _ = some _ by rw [Memory.lane, hw])
      (show m.lane level _ = some _ by rw [Memory.lane, hnew]) hne

/-- What is reachable now was so before, except a node that is put in. -/
lemma LaneStep.back (ha : a ∈ members) (hr : Reaches (m'.lane level) a n)
    (hn : (m.next n level).marked = true) : Reaches (m.lane level) a n := by
  cases hs with
  | same hsame =>
    refine Reaches.congr hr ha (fun y hy z hz => ?_) fun y hy => (hsame y hy).symm
    rw [hsame y hy] at hz
    exact h.target hy hz
  | snip hp hw hx hlane =>
    rw [hlane] at hr
    exact Reaches.of_bypass hr (show m.lane level _ = some _ by rw [Memory.lane, hw])
      (show m.lane level _ = _ by rw [Memory.lane, hx])
  | link hp hw hnew hne _ _ hlane =>
    rw [hlane] at hr
    have hr' := Reaches.of_insert hr (show m.lane level _ = some _ by rw [Memory.lane, hw])
      (show m.lane level _ = some _ by rw [Memory.lane, hnew]) hne
    refine hr'.resolve_right fun hnx => ?_
    rw [hnx.1, hnew] at hn
    cases hn

end Step

section Next

variable (h : Lane c linked members m level) (hl : Links c linked m)
  (hs : LaneStep m m' level members members')

include h hl hs

/-- Where the pointers of the level lead after the write. -/
lemma LaneStep.pointer (ha : a ∈ members') (hq : m'.lane level a = some q) :
    q ∈ members' ∧ (m.node a).key_high ≤ (m.node q).key_low := by
  cases hs with
  | same hsame =>
    rw [hsame _ ha] at hq
    exact ⟨h.target ha hq, h.ordered ha hq⟩
  | @snip b x s hb hw hx hlane =>
    rw [hlane] at hq
    by_cases hab : a = b
    · subst hab
      rw [Function.update_self] at hq
      have hax : m.lane level a = some x := by rw [Memory.lane, hw]
      have hxq : m.lane level x = some q := by rw [Memory.lane, hx, hq]
      have hxmem := h.target ha hax
      refine ⟨h.target hxmem hxq, ?_⟩
      exact (h.ordered ha hax).trans ((hl.range (h.sub hxmem)).trans (h.ordered hxmem hxq))
    · rw [Function.update_of_ne hab] at hq
      exact ⟨h.target ha hq, h.ordered ha hq⟩
  | @link b n s hb hw hn hne hlow hhigh hlane =>
    have hbs : m.lane level b = some s := by rw [Memory.lane, hw]
    rw [hlane] at hq
    by_cases hab : a = b
    · subst hab
      rw [Function.update_self] at hq
      cases hq
      exact ⟨.inl rfl, hlow⟩
    · rw [Function.update_of_ne hab] at hq
      rcases ha with rfl | ha
      · rw [Memory.lane, hn] at hq
        cases hq
        exact ⟨.inr (h.target hb hbs), hhigh⟩
      · exact ⟨.inr (h.target ha hq), h.ordered ha hq⟩

lemma Lane.step (hsub : members' ⊆ linked') (hnode : ∀ n ∈ members', m'.node n = m.node n)
    (hmarked : ∀ n ∈ members', (m.next n level).marked = true → (m'.next n level).marked = true) :
    Lane c linked' members' m' level where
  head := hs.mem h h.head
  sub := hsub
  target hn hq := (hs.pointer h hl hn hq).1
  ordered {n q} hn hq := by
    obtain ⟨hqmem, hle⟩ := hs.pointer h hl hn hq
    rw [hnode n hn, hnode q hqmem]
    exact hle
  reach {x} hx hm := by
    have hold : (m.next x level).marked = false := by
      cases hxm : (m.next x level).marked with
      | false => rfl
      | true =>
        rw [hmarked x hx hxm] at hm
        cases hm
    have hkept : ∀ y ∈ members, (m.next y level).marked = false →
        Reaches (m'.lane level) c.head y := fun y hy hym =>
      hs.keeps h h.head (h.reach hy hym) hym
    cases hs with
    | same | snip => exact hkept x hx hold
    | @link b n s hb hw hn hne hlow hhigh hlane =>
      rcases hx with rfl | hx
      · exact (hkept b hb (by rw [hw])).tail (by simp [hlane])
      · exact hkept x hx hold

/-- What is not reachable and marked stays so. -/
lemma LaneStep.unreached (hn : (m.next n level).marked = true)
    (hr : ¬ Reaches (m.lane level) c.head n) : ¬ Reaches (m'.lane level) c.head n :=
  fun hr' => hr (hs.back h h.head hr' hn)

end Next

/-! ### Nodes behind others -/

/-- The node leads to another one on the level, if head does. -/
def Behind (c : Config A) (m : Memory A V) (level : ℕ) (a n : A) : Prop :=
  Reaches (m.lane level) c.head n → Reaches (m.lane level) a n

lemma Behind.head : Behind c m level c.head n := id

lemma Behind.of_reach (h : Lane c linked members m level) (hl : Links c linked m) {key : ℤ}
    (ha : Reaches (m.lane level) c.head a) (hlow : (m.node a).key_high ≤ key)
    (hhigh : key < (m.node n).key_high) : Behind c m level a n :=
  fun hn => h.later hl ha hn hlow hhigh

lemma Behind.next (h : Behind c m level a n) (hne : a ≠ n) (hq : m.lane level a = some q) :
    Behind c m level q n :=
  fun hn => (Reaches.eq_or_head (h hn) hq).resolve_left hne

/-- A node that is cut out is not reachable any more. -/
lemma LaneStep.cut (h : Lane c linked members m level) (hl : Links c linked m) {s : Option A}
    (ha : a ∈ members) (hw : m.next a level = ⟨some x, false⟩) (hx : m.next x level = ⟨s, true⟩)
    (hrange : (m.node x).key_low < (m.node x).key_high) :
    ¬ Reaches (Function.update (m.lane level) a s) c.head x := by
  intro hr
  have hax : m.lane level a = some x := by rw [Memory.lane, hw]
  have hxs : m.lane level x = s := by rw [Memory.lane, hx]
  rcases Relation.ReflTransGen.cases_tail hr with hxh | ⟨y, hy, hyx⟩
  · exact (hl.unmarked_sentinel (show (m.next x level).marked by rw [hx])).1 hxh
  · by_cases hya : y = a
    · subst hya
      have hsx : s = some x := by simpa using hyx
      have hxmem := h.target ha hax
      have hle := h.ordered hxmem (hxs.trans hsx)
      omega
    · have hyx' : m.lane level y = some x := by simpa [hya] using hyx
      exact hya (h.pred_unique hl (Reaches.of_bypass hy hax hxs) (h.reach ha (by rw [hw])) hyx' hax
        hrange)

lemma Behind.step (h : Lane c linked members m level) (hl : Links c linked m)
    (hs : LaneStep m m' level members members') (hb : Behind c m level a n) (ha : a ∈ members)
    (hn : (m.next n level).marked = true) (hrange : (m.node n).key_low < (m.node n).key_high) :
    Behind c m' level a n := by
  intro hr'
  have hr := hs.back h h.head hr' hn
  cases hs with
  | same hsame =>
    exact Reaches.congr (hb hr) ha (fun _ hx _ hy => h.target hx hy) fun y hy => hsame y hy
  | @snip b x s hbm hw hx hlane =>
    have hbx : m.lane level b = some x := by rw [Memory.lane, hw]
    have hxs : m.lane level x = s := by rw [Memory.lane, hx]
    rw [hlane] at hr' ⊢
    rcases Reaches.bypass (hb hr) hbx hxs with hab | ⟨rfl, -⟩
    · exact hab
    · exfalso
      exact LaneStep.cut h hl hbm hw hx hrange hr'
  | link hbm hw hnew hne _ _ hlane =>
    rw [hlane]
    exact Reaches.insert (hb hr) (show m.lane level _ = some _ by rw [Memory.lane, hw])
      (show m.lane level _ = some _ by rw [Memory.lane, hnew]) hne

end ObjectCache.LockFree
