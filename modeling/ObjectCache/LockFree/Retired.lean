import ObjectCache.LockFree.Get
import ObjectCache.LockFree.Lanes

/-! What `remove` hands to `deallocate`, and when head does not lead to it any more on any level. -/

set_option linter.unusedSectionVars false

namespace ObjectCache.LockFree

open Lib StateTransition

variable {A V T : Type} [DecidableEq A] [DecidableEq T] {c : Config A}

/-- The node that a step links, and the level. -/
def puts (s : State A V T) : Act A V T → Option (A × ℕ)
  | .next t spurious =>
    let l := s.thread t
    match l.pc with
    | .linkBottom newNode =>
      if cas s.memory spurious (l.preds 0) 0 (some (l.succs 0)) then some (newNode, 0) else none
    | .link newNode level =>
      if cas s.memory spurious (l.preds level) level (some (l.succs level)) then
        some (newNode, level)
      else none
    | _ => none
  | _ => none

/-- `insert` links on an upper level an unmarked node, right before the node that it already leads to;
the second `find` of `remove` does not stop at a node in front of the one to remove. -/
def clean (s : State A V T) : Act A V T → Bool
  | .next t spurious =>
    let l := s.thread t
    let m := s.memory
    match l.pc with
    | .link newNode level =>
      !cas m spurious (l.preds level) level (some (l.succs level)) ||
        (m.next newNode level = ⟨some (l.succs level), false⟩ &&
          decide ((m.node newNode).key_high ≤ (m.node (l.succs level)).key_low))
    | .next (.unlink nodeToRemove) level _ curr =>
      decide ((m.node nodeToRemove).topLevel < level) || (m.next curr level).marked ||
        (m.node curr).is_less_than l.op.key_lb l.op.key_ub ||
          decide ((m.node nodeToRemove).key_low < (m.node curr).key_high)
    | _ => true
  | _ => true

variable (r : Trace c V T)

/-- The nodes that have been linked on a level. -/
def Trace.lane (level : ℕ) : ℕ → Set A
  | 0 => {c.head, c.tail}
  | i + 1 => {n | puts (r.state i) (r.act i) = some (n, level)} ∪ lane level i

/-! ### What a search knows of the levels -/

section Knows

variable (i : ℕ) (op : Op V)

/-- A node that the call has marked, to the end of its range behind the searched one. -/
structure Removed (n : A) : Prop where
  linked : n ∈ r.linked i
  marked : ((r.memory i).next n 0).marked
  high : op.key_lb < ((r.memory i).node n).key_high

def Site.Linked : Site A → Prop
  | .link newNode level => ∀ k < level, newNode ∈ r.lane k i
  | .unlink nodeToRemove => Removed r i op nodeToRemove
  | _ => True

structure Walk (site : Site A) (level : ℕ) (pred : A) : Prop where
  linked : site.Linked r i op
  mem : ∀ k ≤ level, pred ∈ r.lane k i
  behind : ∀ n, site = .unlink n → ∀ k ≤ level, Behind c (r.memory i) k pred n
  passed : ∀ n, site = .unlink n → ∀ k, level < k → k < MAX_LEVEL →
    ¬ Reaches ((r.memory i).lane k) c.head n

def Pc.Walks : Pc A V → Prop
  | .load site level pred | .snip site level pred _ _ => Walk r i op site level pred
  | .next site level pred curr => Walk r i op site level pred ∧ curr ∈ r.lane level i ∧
    ∀ n, site = .unlink n → Behind c (r.memory i) level curr n
  | .link newNode level => ∀ k < level, newNode ∈ r.lane k i
  | .check nodeToRemove true => Removed r i op nodeToRemove
  | _ => True

/-- The array of predecessors, as far as it is filled. -/
def Filled (l : Local A V) : Prop :=
  ∀ start, l.pc.filled = some start → ∀ k, start ≤ k → k < MAX_LEVEL → l.preds k ∈ r.lane k i

end Knows

structure Laned (i : ℕ) : Prop where
  nested : ∀ level, r.lane (level + 1) i ⊆ r.lane level i
  lane : ∀ level < MAX_LEVEL, Lane c (r.linked i) (r.lane level i) (r.memory i) level
  /-- The levels are marked from the top. -/
  marks : ∀ n ∈ r.linked i, ∀ k level, k ≤ level → level ≤ ((r.memory i).node n).topLevel →
    ((r.memory i).next n k).marked → ((r.memory i).next n level).marked
  preds : ∀ t, Filled r i ((r.state i).thread t)
  walks : ∀ t, ((r.state i).thread t).pc.Walks r i ((r.state i).thread t).op

variable {r} {i : ℕ} {t : T} {op : Op V} {n a pred curr : A} {level k : ℕ} {site : Site A}

lemma Laned.nested_le (h : Laned r i) (hk : k ≤ level) : r.lane level i ⊆ r.lane k i := by
  induction hk with
  | refl => exact fun _ => id
  | step _ ih => exact (h.nested _).trans ih

lemma lane_succ_of (h : ∀ n, puts (r.state i) (r.act i) ≠ some (n, level)) :
    r.lane level (i + 1) = r.lane level i := by
  rw [Trace.lane, Set.union_eq_right]
  intro n hn
  exact absurd hn (h n)

lemma lane_succ_none (h : puts (r.state i) (r.act i) = none) :
    r.lane level (i + 1) = r.lane level i :=
  lane_succ_of fun n => by rw [h]; exact fun hn => by cases hn

lemma lane_succ_some (h : puts (r.state i) (r.act i) = some (n, level)) :
    r.lane level (i + 1) = insert n (r.lane level i) := by
  rw [Trace.lane, h]
  ext x
  simp [eq_comm]

lemma lane_mono : r.lane level i ⊆ r.lane level (i + 1) := Set.subset_union_right

/-- Head leads on a level only to nodes that are as high. -/
lemma level_of_reaches {linked : Set A} {m : Memory A V} (hl : Links c linked m)
    {members : Set A} (h : Lane c linked members m level)
    (hr : Reaches (m.lane level) c.head n) (hn : n ≠ c.head) : level ≤ (m.node n).topLevel := by
  rcases Relation.ReflTransGen.cases_tail hr with hnh | ⟨y, hy, hyn⟩
  · exact absurd hnh hn
  · exact (hl.target (h.sub (h.mem h.head hy)) hyn).level

lemma Removed.sentinel (h : Removed r i op n) (hl : Links c (r.linked i) (r.memory i)) :
    n ≠ c.head ∧ n ≠ c.tail :=
  hl.unmarked_sentinel h.marked

/-! ### Steps of the levels -/

section Lanes

variable (h : Inv r i) (hu : Upper r i) (hl : Laned r i)

include hl

lemma Laned.same (hlevel : level < MAX_LEVEL) (hp : puts (r.state i) (r.act i) = none)
    (hsame : ∀ x ∈ r.linked i, (r.memory (i + 1)).next x level = (r.memory i).next x level) :
    LaneStep (r.memory i) (r.memory (i + 1)) level (r.lane level i) (r.lane level (i + 1)) := by
  rw [lane_succ_none hp]
  refine .same fun x hx => ?_
  rw [Memory.lane, hsame x ((hl.lane level hlevel).sub hx)]
  rfl

/-- A write to one level. -/
lemma Laned.write {p : Ptr A} (hlevel : level < MAX_LEVEL)
    (hm : r.memory (i + 1) = (r.memory i).setNext a k p)
    (hp : ∀ x, puts (r.state i) (r.act i) ≠ some (x, level) ∨ k = level)
    (hk : k = level → (r.memory (i + 1)).lane level = Function.update ((r.memory i).lane level) a p.node →
      LaneStep (r.memory i) (r.memory (i + 1)) level (r.lane level i) (r.lane level (i + 1))) :
    LaneStep (r.memory i) (r.memory (i + 1)) level (r.lane level i) (r.lane level (i + 1)) := by
  by_cases he : k = level
  · refine hk he ?_
    subst he
    funext x
    rw [Memory.lane, hm, setNext_next]
    by_cases hx : x = a
    · simp [hx]
    · simp [hx, Memory.lane]
  · rw [lane_succ_of fun x => (hp x).resolve_right he]
    refine .same fun x hx => ?_
    rw [Memory.lane, hm, setNext_other fun h => he h.2.symm]
    rfl

/-- A pointer that stays as it is while its word changes. -/
lemma Laned.mark {s : Option A} {b b' : Bool} (hlevel : level < MAX_LEVEL)
    (hp : puts (r.state i) (r.act i) = none) (hw : (r.memory i).next a k = ⟨s, b⟩)
    (hm : r.memory (i + 1) = (r.memory i).setNext a k ⟨s, b'⟩) :
    LaneStep (r.memory i) (r.memory (i + 1)) level (r.lane level i) (r.lane level (i + 1)) := by
  refine hl.write hlevel hm (fun x => .inl (by rw [hp]; exact fun h => by cases h)) ?_
  rintro rfl hlane
  rw [lane_succ_none hp]
  refine .same fun x _ => ?_
  rw [hlane]
  by_cases hx : x = a
  · simp [hx, Memory.lane, hw]
  · simp [hx]

include h hu

/-- The CAS of `insert` on the bottom level. -/
lemma Laned.linkBottom {spurious : Bool} (hlevel : level < MAX_LEVEL)
    (ha : r.act i = .next t spurious) (hpc : ((r.state i).thread t).pc = .linkBottom n)
    (hcas : cas (r.memory i) spurious (((r.state i).thread t).preds 0) 0
      (some (((r.state i).thread t).succs 0)))
    (hm : r.memory (i + 1) =
      (r.memory i).setNext (((r.state i).thread t).preds 0) 0 ⟨some n, false⟩) :
    LaneStep (r.memory i) (r.memory (i + 1)) level (r.lane level i) (r.lane level (i + 1)) := by
  have hok := h.ok t
  rw [hpc] at hok
  obtain ⟨hn, hg, hstored⟩ := hok
  have hp : puts (r.state i) (r.act i) = some (n, 0) := by
    simp only [ha, puts, hpc]
    rw [if_pos hcas]
  refine hl.write hlevel hm (fun x => ?_) ?_
  · by_cases hz : 0 = level
    · exact .inr hz
    · refine .inl fun hx => hz ?_
      rw [hp] at hx
      cases hx
      rfl
  · rintro rfl hlane
    have hpred := hl.preds t 0 (by rw [hpc]; rfl) 0 le_rfl hlevel
    have hlow := hg.low
    have hhigh := hg.high
    rw [hn.op] at hlow hhigh
    rw [lane_succ_some hp]
    refine .link hpred (next_of_cas hcas) (hstored 0 (Nat.zero_le _)) ?_ hlow hhigh hlane
    rintro hna
    exact hn.own.not_linked (by rw [hna]; exact (hg.arrays.pred 0 le_rfl hlevel).1)

lemma Laned.link {spurious : Bool} (hlevel : level < MAX_LEVEL)
    (ha : r.act i = .next t spurious) (hpc : ((r.state i).thread t).pc = .link n k)
    (hclean : clean (r.state i) (r.act i))
    (hcas : cas (r.memory i) spurious (((r.state i).thread t).preds k) k
      (some (((r.state i).thread t).succs k)))
    (hm : r.memory (i + 1) =
      (r.memory i).setNext (((r.state i).thread t).preds k) k ⟨some n, false⟩) :
    LaneStep (r.memory i) (r.memory (i + 1)) level (r.lane level i) (r.lane level (i + 1)) := by
  have hok := h.ok t
  rw [hpc] at hok
  obtain ⟨⟨hn, -, htop⟩, -⟩ := hok
  have hp : puts (r.state i) (r.act i) = some (n, k) := by
    simp only [ha, puts, hpc]
    rw [if_pos hcas]
  refine hl.write hlevel hm (fun x => ?_) ?_
  · by_cases hk : k = level
    · exact .inr hk
    · refine .inl fun hx => hk ?_
      rw [hp] at hx
      cases hx
      rfl
  · rintro rfl hlane
    have hpred := hl.preds t 0 (by rw [hpc]; rfl) k (Nat.zero_le _) hlevel
    have hlow := (hu.bounded t 0 (by rw [hpc]; rfl) k (Nat.zero_le _) hlevel).1
    rw [hn.op] at hlow
    simp only [ha, clean, hpc, hcas, Bool.not_true, Bool.false_or, Bool.and_eq_true,
      decide_eq_true_eq] at hclean
    obtain ⟨hword, hhigh⟩ := hclean
    rw [lane_succ_some hp]
    refine .link hpred (next_of_cas hcas) hword ?_ hlow hhigh hlane
    intro hna
    have htail : n ≠ c.tail := by
      rintro rfl
      have hlt := hn.top
      rw [h.shape.tail_node] at hlt
      exact lt_irrefl _ hlt
    have hlt := hu.nonempty n (hn.target k htop).linked (hn.target k htop).not_head htail
    rw [← hna] at hlow
    exact absurd hlow (not_le.mpr hlt)

omit h hu hl in
/-- The CAS of `insert` on an upper level, by whether it succeeds. -/
lemma advance_link {m m' : Memory A V} {l l' : Local A V} {spurious : Bool}
    (hpc : l.pc = .link n level) (h : advance c m l spurious = some (m', l')) :
    cas m spurious (l.preds level) level (some (l.succs level)) = true ∧
        m' = m.setNext (l.preds level) level ⟨some n, false⟩ ∧ l' = l.goto (above m n (level + 1)) ∨
      cas m spurious (l.preds level) level (some (l.succs level)) = false ∧ m' = m ∧
        l' = l.goto (retry c (.link n level)) := by
  simp only [advance, hpc] at h
  split_ifs at h with hcas
  · cases h
    exact .inl ⟨hcas, rfl, rfl⟩
  · cases h
    exact .inr ⟨by simpa using hcas, rfl, rfl⟩

lemma Laned.advance {spurious : Bool} {m' : Memory A V} {l' : Local A V} (hlevel : level < MAX_LEVEL)
    (ha : r.act i = .next t spurious) (hclean : clean (r.state i) (r.act i))
    (hs : r.state (i + 1) = (r.state i).put m' t l')
    (hadv : advance c (r.memory i) ((r.state i).thread t) spurious = some (m', l')) :
    LaneStep (r.memory i) (r.memory (i + 1)) level (r.lane level i) (r.lane level (i + 1)) := by
  have hm := memory_succ hs
  have hquiet : puts (r.state i) (.next t spurious) = none → m' = r.memory i →
      LaneStep (r.memory i) (r.memory (i + 1)) level (r.lane level i) (r.lane level (i + 1)) := by
    intro hp hm'
    refine hl.same hlevel (by rw [ha]; exact hp) fun x _ => ?_
    rw [hm, hm']
  have hstore : ∀ {n k}, ((r.state i).thread t).pc = .store n k →
      m' = (r.memory i).setNext n k ⟨some (((r.state i).thread t).succs k), false⟩ →
      LaneStep (r.memory i) (r.memory (i + 1)) level (r.lane level i) (r.lane level (i + 1)) := by
    intro n k hpc hm'
    have hn := (h.private (t := t) (n := n) (by rw [hpc]; rfl)).not_linked
    refine hl.same hlevel (by simp [ha, puts, hpc]) fun x hx => ?_
    rw [hm, hm']
    refine setNext_other fun he => hn ?_
    rw [← he.1]
    exact hx
  cases advance_cases hadv with
  | load hpc | marked hpc | less hpc | down hpc | found hpc | retry hpc | readMarked hpc
  | read hpc | remark hpc | readBottom hpc | unmarked hpc | mine hpc | other hpc | again hpc =>
    exact hquiet (by simp [puts, hpc]) rfl
  | refind hpc hcas =>
    refine hquiet ?_ rfl
    simp only [puts, hpc]
    rw [if_neg hcas]
  | @snip site k pred curr succ hpc hw =>
    have hok := h.ok t
    rw [hpc] at hok
    have hwalk := hl.walks t
    rw [hpc] at hwalk
    have hp : puts (r.state i) (r.act i) = none := by simp [ha, puts, hpc]
    refine hl.write hlevel hm (fun x => .inl (by rw [hp]; exact fun h => by cases h)) ?_
    rintro rfl hlane
    rw [lane_succ_none hp]
    exact .snip (hwalk.mem k le_rfl) hw hok.2.2 hlane
  | store hpc | stored hpc => exact hstore hpc rfl
  | linkBottom hpc hcas => exact hl.linkBottom h hu hlevel ha hpc hcas hm
  | link hpc | relink hpc =>
    rcases advance_link hpc hadv with ⟨hcas, hm', -⟩ | ⟨hcas, hm', -⟩
    · rw [hm'] at hm
      exact hl.link h hu hlevel ha hpc hclean hcas hm
    · refine hquiet ?_ hm'
      simp only [puts, hpc]
      rw [if_neg (by simp [hcas])]
  | mark hpc hw => exact hl.mark hlevel (by simp [ha, puts, hpc]) hw hm
  | markBottom hpc hcas => exact hl.mark hlevel (by simp [ha, puts, hpc]) (next_of_cas hcas) hm

/-- What a step does to the nodes and pointers of a level. -/
lemma Laned.steps {a : Act A V T} {s : State A V T} (hlevel : level < MAX_LEVEL) (ha : r.act i = a)
    (hs : r.state (i + 1) = s) (hstep : step c (r.state i) a = some s)
    (hclean : clean (r.state i) (r.act i)) :
    LaneStep (r.memory i) (r.memory (i + 1)) level (r.lane level i) (r.lane level (i + 1)) := by
  cases a with
  | next t spurious =>
    rw [step, Option.map_eq_some_iff] at hstep
    obtain ⟨⟨m', l'⟩, hadv, rfl⟩ := hstep
    exact hl.advance h hu hlevel ha hclean hs hadv
  | call t op =>
    cases step_cases hstep with
    | call =>
      refine hl.same hlevel (by rw [ha]; rfl) fun x _ => ?_
      rw [memory_succ hs]
  | allocate t newNode topLevel =>
    cases step_cases hstep with
    | allocate hpc hop hn htop =>
      refine hl.same hlevel (by rw [ha]; rfl) fun x hx => ?_
      have hne : x ≠ newNode := by
        rintro rfl
        exact hn (h.shape.allocated hx)
      rw [memory_succ hs]
      exact congrFun (Function.update_of_ne hne ..) level
  | ret t =>
    cases step_cases hstep with
    | ret =>
      refine hl.same hlevel (by rw [ha]; rfl) fun x _ => ?_
      rw [memory_succ hs]

end Lanes

/-! ### What stays true -/

lemma puts_cases {s : State A V T} {act : Act A V T} (h : puts s act = some (n, level)) :
    level = 0 ∧ links s act = some n ∨ ∃ t, (s.thread t).pc = .link n level := by
  cases act with
  | next t spurious =>
    simp only [puts] at h
    split at h
    · rename_i newNode hpc
      split_ifs at h with hcas
      cases h
      refine .inl ⟨rfl, ?_⟩
      simp only [links, hpc]
      rw [if_pos hcas]
    · rename_i newNode k hpc
      split_ifs at h with hcas
      cases h
      exact .inr ⟨t, hpc⟩
    · cases h
  | _ => cases h

/-- A node that is linked on the bottom level is private before. -/
lemma Inv.links_own (h : Inv r i) (hl : links (r.state i) (r.act i) = some n) :
    Private c (r.linked i) (r.memory i) n := by
  cases ha : r.act i with
  | next t spurious =>
    simp only [ha, links] at hl
    split at hl
    · rename_i newNode hpc
      split_ifs at hl
      cases hl
      exact h.private (t := t) (by rw [hpc]; rfl)
    · cases hl
  | _ =>
    rw [ha] at hl
    cases hl

structure Moves (r : Trace c V T) (i : ℕ) : Prop where
  inv : Inv r i
  next : Inv r (i + 1)
  upper : Upper r i
  laned : Laned r i
  carries : Carries r i
  step : ∀ level < MAX_LEVEL,
    LaneStep (r.memory i) (r.memory (i + 1)) level (r.lane level i) (r.lane level (i + 1))

section Moves

variable (h : Moves r i)

include h

lemma Moves.sub (hlevel : level < MAX_LEVEL) : r.lane level (i + 1) ⊆ r.linked (i + 1) := by
  rintro n (hn | hn)
  · rcases puts_cases hn with ⟨-, hl⟩ | ⟨t, hpc⟩
    · exact .inl hl
    · have hok := h.inv.ok t
      rw [hpc] at hok
      exact linked_mono (hok.1.1.target 0 (Nat.zero_le _)).linked
  · exact linked_mono ((h.laned.lane level hlevel).sub hn)

lemma Moves.old (hn : n ∈ r.linked (i + 1)) :
    n ∈ r.linked i ∨ Private c (r.linked i) (r.memory i) n := by
  rcases hn with hn | hn
  · exact .inr (h.inv.links_own hn)
  · exact .inl hn

lemma Moves.node (hn : n ∈ r.linked (i + 1)) : (r.memory (i + 1)).node n = (r.memory i).node n := by
  rcases h.old hn with hn | hn
  · exact h.carries.same hn
  · exact h.carries.node n hn.allocated

lemma Moves.marked (hn : n ∈ r.linked (i + 1)) (hm : ((r.memory i).next n level).marked = true) :
    ((r.memory (i + 1)).next n level).marked = true := by
  rcases h.old hn with hn | hn
  · rw [h.carries.frozen n hn level hm]
    exact hm
  · rw [hn.unmarked] at hm
    cases hm

lemma Moves.lane (hlevel : level < MAX_LEVEL) :
    Lane c (r.linked (i + 1)) (r.lane level (i + 1)) (r.memory (i + 1)) level :=
  (h.laned.lane level hlevel).step h.inv.shape.toLinks (h.step level hlevel) (h.sub hlevel)
    (fun _ hn => h.node (h.sub hlevel hn)) fun _ hn => h.marked (h.sub hlevel hn)

lemma Removed.frame (hr : Removed r i op n) : Removed r (i + 1) op n where
  linked := linked_mono hr.linked
  marked := h.marked (linked_mono hr.linked) hr.marked
  high := by
    rw [h.node (linked_mono hr.linked)]
    exact hr.high

/-- A removed node that head does not lead to. -/
lemma Removed.unreached_frame (hr : Removed r i op n) (hlevel : level < MAX_LEVEL)
    (hn : ¬ Reaches ((r.memory i).lane level) c.head n) :
    ¬ Reaches ((r.memory (i + 1)).lane level) c.head n := by
  have hl := h.inv.shape.toLinks
  intro hr'
  have hle := level_of_reaches h.carries.after.toLinks (h.lane hlevel) hr' (hr.sentinel hl).1
  rw [h.node (linked_mono hr.linked)] at hle
  exact (h.step level hlevel).unreached (h.laned.lane level hlevel) hl
    (hl.marks hr.linked hr.marked hle) hn hr'

lemma Removed.behind_frame (hr : Removed r i op n) (hlevel : level < MAX_LEVEL)
    (ha : a ∈ r.lane level i) (hb : Behind c (r.memory i) level a n) :
    Behind c (r.memory (i + 1)) level a n := by
  have hl := h.inv.shape.toLinks
  intro hr'
  have hle := level_of_reaches h.carries.after.toLinks (h.lane hlevel) hr' (hr.sentinel hl).1
  rw [h.node (linked_mono hr.linked)] at hle
  have hne := hr.sentinel hl
  exact hb.step (h.laned.lane level hlevel) hl (h.step level hlevel) ha
    (hl.marks hr.linked hr.marked hle) (h.upper.nonempty n hr.linked hne.1 hne.2) hr'

lemma Site.Linked.frame (hs : site.Linked r i op) : site.Linked r (i + 1) op := by
  cases site with
  | link newNode level => exact fun k hk => lane_mono (hs k hk)
  | unlink nodeToRemove => exact Removed.frame h hs
  | _ => trivial

lemma Walk.frame (hw : Walk r i op site level pred) (hlevel : level < MAX_LEVEL) :
    Walk r (i + 1) op site level pred where
  linked := hw.linked.frame h
  mem k hk := lane_mono (hw.mem k hk)
  behind n hn k hk := by
    have hr := hw.linked
    subst hn
    exact Removed.behind_frame h hr (lt_of_le_of_lt hk hlevel) (hw.mem k hk) (hw.behind n rfl k hk)
  passed n hn k hk hmax := by
    have hr := hw.linked
    subst hn
    exact Removed.unreached_frame h hr hmax (hw.passed n rfl k hk hmax)

lemma Pc.Walks.frame {pc : Pc A V} {v : Vars A V} {j : ℕ} (hpc : PcOk r t j v pc)
    (hw : pc.Walks r i op) : pc.Walks r (i + 1) op := by
  cases pc with
  | load site level pred => exact Walk.frame h hw hpc.max
  | snip site level pred curr succ => exact Walk.frame h hw hpc.1.max
  | next site level pred curr =>
    obtain ⟨hwalk, hcurr, hb⟩ := hw
    refine ⟨hwalk.frame h hpc.1.max, lane_mono hcurr, ?_⟩
    rintro n rfl
    exact Removed.behind_frame h hwalk.linked hpc.1.max hcurr (hb n rfl)
  | link newNode level => exact fun k hk => lane_mono (hw k hk)
  | check n mine =>
    cases mine with
    | true => exact Removed.frame h hw
    | false => trivial
  | _ => trivial

lemma Moves.head (hlevel : level < MAX_LEVEL) : c.head ∈ r.lane level i :=
  (h.laned.lane level hlevel).head

lemma Moves.retry (site : Site A) (hs : site.Linked r i op) :
    (retry c site : Pc A V).Walks r i op where
  linked := hs
  mem k hk := h.head (lt_of_le_of_lt hk (by decide))
  behind n hn k hk := .head
  passed n hn k hk hmax := absurd hmax (not_lt.mpr (Nat.le_of_pred_lt hk))

/-- Where a search stops, its node is not in front any more. -/
lemma Moves.stop (hr : Removed r i op n) (hlevel : level < MAX_LEVEL)
    (hcurr : curr ∈ r.lane level i) (hb : Behind c (r.memory i) level curr n)
    (hm : ((r.memory i).next curr level).marked = false)
    (hfront : level ≤ ((r.memory i).node n).topLevel →
      ((r.memory i).node n).key_low < ((r.memory i).node curr).key_high) :
    ¬ Reaches ((r.memory i).lane level) c.head n := by
  have hl := h.inv.shape.toLinks
  have hlane := h.laned.lane level hlevel
  intro hreach
  have hle := level_of_reaches hl hlane hreach (hr.sentinel hl).1
  rcases hlane.le hl hcurr (hb hreach) with rfl | hhigh
  · rw [hl.marks hr.linked hr.marked hle] at hm
    cases hm
  · exact absurd hhigh (not_le.mpr (hfront hle))

lemma Moves.less {v : Vars A V} (hs : Searches r t i v site level pred)
    (ht : Target c (r.linked i) (r.memory i) level curr) (hw : Walk r i v.op site level pred)
    (hcurr : curr ∈ r.lane level i) (hm : ((r.memory i).next curr level).marked = false)
    (hless : ((r.memory i).node curr).key_high ≤ v.op.key_lb) : Walk r i v.op site level curr where
  linked := hw.linked
  mem k hk := h.laned.nested_le hk hcurr
  behind n hn k hk := by
    have hr := hw.linked
    subst hn
    have hmax := lt_of_le_of_lt hk hs.max
    have hmk : ((r.memory i).next curr k).marked = false := by
      cases hck : ((r.memory i).next curr k).marked with
      | false => rfl
      | true =>
        rw [h.laned.marks curr ht.linked k level hk ht.level hck] at hm
        cases hm
    have hlane := h.laned.lane k hmax
    exact .of_reach hlane h.inv.shape.toLinks (hlane.reach (h.laned.nested_le hk hcurr) hmk) hless
      hr.high
  passed := hw.passed

/-- The search goes on behind a node that is not the one to remove. -/
lemma Moves.behind (hr : Removed r i op n) (hlow : ((r.memory i).node pred).key_high ≤ op.key_lb)
    (hb : Behind c (r.memory i) level pred n) (hq : (r.memory i).lane level pred = some curr) :
    Behind c (r.memory i) level curr n := by
  refine hb.next ?_ hq
  rintro rfl
  exact absurd (hlow.trans_lt hr.high) (lt_irrefl _)

/-- The search stops on a level. -/
lemma Moves.down {v : Vars A V} (hs : Searches r t i v site level pred)
    (hw : Walk r i v.op site level pred) (hcurr : curr ∈ r.lane level i)
    (hb : ∀ n, site = .unlink n → Behind c (r.memory i) level curr n)
    (hm : ((r.memory i).next curr level).marked = false)
    (hfront : ∀ n, site = .unlink n → level ≤ ((r.memory i).node n).topLevel →
      ((r.memory i).node n).key_low < ((r.memory i).node curr).key_high) :
    ∀ n, site = .unlink n → ∀ k, level ≤ k → k < MAX_LEVEL →
      ¬ Reaches ((r.memory i).lane k) c.head n := by
  intro n hn k hk hmax
  rcases Nat.eq_or_lt_of_le hk with rfl | hlt
  · have hr := hw.linked
    subst hn
    exact h.stop hr hs.max hcurr (hb n rfl) hm (hfront n rfl)
  · exact hw.passed n hn k hlt hmax

lemma Moves.found {v : Vars A V} {b : Bool} {m : Memory A V} (hw : site.Linked r i v.op) :
    (found m v b site).Walks r i v.op := by
  cases site with
  | link newNode level => exact hw
  | insert newNode =>
    rw [LockFree.found]
    split_ifs <;> trivial
  | remove =>
    rw [LockFree.found]
    split_ifs
    · cases (m.node (v.succs 0)).topLevel <;> trivial
    · trivial
  | _ => trivial

omit h in
lemma front_of_clean {s : State A V T} {spurious : Bool}
    (hclean : clean s (.next t spurious)) (hpc : (s.thread t).pc = .next site level pred curr)
    (hm : (s.memory.next curr level).marked = false)
    (hless : (s.memory.node curr).is_less_than (s.thread t).op.key_lb (s.thread t).op.key_ub = false) :
    ∀ n, site = .unlink n → level ≤ (s.memory.node n).topLevel →
      (s.memory.node n).key_low < (s.memory.node curr).key_high := by
  rintro n rfl hle
  simp only [clean, hpc, hm, hless, Bool.or_false, Bool.or_eq_true, decide_eq_true_eq] at hclean
  omega

lemma Moves.put_linkBottom {spurious : Bool} (ha : r.act i = .next t spurious)
    (hpc : ((r.state i).thread t).pc = .linkBottom n)
    (hcas : cas (r.memory i) spurious (((r.state i).thread t).preds 0) 0
      (some (((r.state i).thread t).succs 0))) : n ∈ r.lane 0 (i + 1) := by
  have hp : puts (r.state i) (r.act i) = some (n, 0) := by
    simp only [ha, puts, hpc]
    rw [if_pos hcas]
  rw [lane_succ_some hp]
  exact .inl rfl

lemma Moves.put_link {spurious : Bool} (ha : r.act i = .next t spurious)
    (hpc : ((r.state i).thread t).pc = .link n level)
    (hcas : cas (r.memory i) spurious (((r.state i).thread t).preds level) level
      (some (((r.state i).thread t).succs level))) : n ∈ r.lane level (i + 1) := by
  have hp : puts (r.state i) (r.act i) = some (n, level) := by
    simp only [ha, puts, hpc]
    rw [if_pos hcas]
  rw [lane_succ_some hp]
  exact .inl rfl

omit h in
lemma above_walks {m : Memory A V} (hn : ∀ k < level, n ∈ r.lane k i) :
    (above m n level).Walks r i op := by
  rw [above]
  split_ifs
  · exact hn
  · trivial

omit h in
lemma below_walks : (below n level : Pc A V).Walks r i op := by
  cases level <;> trivial

/-- What the searches of a thread know after its step. -/
lemma Moves.walks {spurious : Bool} {m' : Memory A V} {l' : Local A V}
    (ha : r.act i = .next t spurious) (hclean : clean (r.state i) (r.act i))
    (hs : r.state (i + 1) = (r.state i).put m' t l')
    (hadv : LockFree.advance c (r.memory i) ((r.state i).thread t) spurious = some (m', l')) :
    l'.pc.Walks r (i + 1) l'.op := by
  have hok := h.inv.ok t
  have hok' := h.next.ok t
  have hwalk := h.laned.walks t
  rw [thread_self hs] at hok'
  have hread : l'.pc.Walks r i l'.op → l'.pc.Walks r (i + 1) l'.op := fun hw => hw.frame h hok'
  have hlinks := h.inv.shape.toLinks
  have hadv' := advance_cases hadv
  cases hadv' with
  | @load site level pred curr hpc hn =>
    rw [hpc] at hok hwalk
    have hlane := h.laned.lane level hok.max
    refine hread ⟨hwalk, hlane.target (hwalk.mem level le_rfl) hn, ?_⟩
    rintro n rfl
    exact h.behind hwalk.linked hok.high (hwalk.behind n rfl level le_rfl) hn
  | marked hpc hw =>
    rw [hpc] at hwalk
    exact hread hwalk.1
  | @less site level pred curr succ hpc hw hless =>
    rw [hpc] at hok hwalk
    obtain ⟨hsearch, ht, -⟩ := hok
    obtain ⟨hwalk, hcurr, hb⟩ := hwalk
    have hlane := h.laned.lane level hsearch.max
    have hsucc : (r.memory i).lane level curr = some succ := by rw [Memory.lane, hw]
    have hhigh := (is_less_than_iff.mp hless).2
    refine hread ⟨h.less hsearch ht hwalk hcurr (by rw [hw]) hhigh, hlane.target hcurr hsucc, ?_⟩
    rintro n rfl
    exact h.behind hwalk.linked hhigh (hb n rfl) hsucc
  | @down site level pred curr hpc hm hless =>
    rw [ha] at hclean
    have hfront := front_of_clean hclean hpc hm hless
    rw [hpc] at hok hwalk
    obtain ⟨hwalk, hcurr, hb⟩ := hwalk
    exact hread ⟨hwalk.linked, fun k hk => hwalk.mem k (by omega), fun n hn k hk =>
      hwalk.behind n hn k (by omega), h.down hok.1 hwalk hcurr hb hm hfront⟩
  | @found site pred curr hpc hm hless =>
    rw [hpc] at hwalk
    exact hread (h.found hwalk.1.linked)
  | snip hpc hw =>
    rw [hpc] at hwalk hok
    exact Walk.frame h hwalk hok.1.max
  | retry hpc =>
    rw [hpc] at hwalk
    exact hread (h.retry _ hwalk.linked)
  | store hpc | stored hpc | remark hpc | mark hpc | read hpc => trivial
  | readBottom hpc | unmarked hpc | other hpc | again hpc => trivial
  | linkBottom hpc hcas =>
    refine above_walks fun k hk => ?_
    obtain rfl : k = 0 := by omega
    exact h.put_linkBottom ha hpc hcas
  | refind hpc => exact hread (h.retry _ trivial)
  | @link n level hpc | @relink n level hpc =>
    rw [hpc] at hwalk
    rcases advance_link hpc hadv with ⟨hcas, -, hl'⟩ | ⟨hcas, -, hl'⟩
    · rw [hl']
      refine above_walks fun k hk => ?_
      rcases Nat.lt_or_eq_of_le (Nat.le_of_lt_succ hk) with hlt | rfl
      · exact lane_mono (hwalk k hlt)
      · exact h.put_link ha hpc hcas
    · rw [hl'] at hread ⊢
      exact hread (h.retry (.link n level) hwalk)
  | readMarked hpc => exact below_walks
  | @markBottom n succ hpc hcas =>
    rw [hpc] at hok
    obtain ⟨hv, -⟩ := hok
    refine ⟨linked_mono hv.linked, ?_, ?_⟩
    · rw [memory_succ hs, setNext_self]
    · rw [h.carries.same hv.linked]
      exact (is_equal_iff.mp hv.equal).2
  | @mine n hpc =>
    rw [hpc] at hwalk
    exact hread (h.retry (.unlink n) hwalk)

lemma Moves.stop_filled {l : Local A V} (hf : Filled r i l) (hpc : l.pc = .next site level pred curr)
    (hw : Walk r i l.op site level pred) (hk : level ≤ k) (hmax : k < MAX_LEVEL) :
    (l.stop level pred curr).preds k ∈ r.lane k (i + 1) := by
  by_cases he : k = level
  · subst he
    simp only [Vars.stop, Function.update_self]
    exact lane_mono (hw.mem k le_rfl)
  · simp only [Vars.stop, Function.update_of_ne he]
    exact lane_mono (hf (level + 1) (by rw [hpc]; rfl) k (by omega) hmax)

/-- The array of a thread stays, or is filled one level further. -/
lemma Moves.filled {l l' : Local A V} {m m' : Memory A V} {spurious : Bool} (hf : Filled r i l)
    (hw : l.pc.Walks r i l.op) (hadv : Advance c m l spurious m' l') : Filled r (i + 1) l' := by
  have hsame : ∀ {start : ℕ} {pc : Pc A V}, l.pc.filled = some start →
      pc.filled = none ∨ pc.filled = some start ∨ pc.filled = some MAX_LEVEL →
      Filled r (i + 1) (l.goto pc) := by
    intro start pc hold hpc from' hfrom k hk hmax
    rw [show (l.goto pc).pc.filled = pc.filled from rfl] at hfrom
    rcases hpc with hpc | hpc | hpc <;> rw [hpc] at hfrom <;> cases hfrom
    · exact lane_mono (hf start hold k hk hmax)
    · exact absurd hmax (not_lt.mpr hk)
  have hnone : ∀ {pc : Pc A V}, pc.filled = none → Filled r (i + 1) (l.goto pc) := by
    intro pc hpc start hs
    rw [show (l.goto pc).pc.filled = pc.filled from rfl, hpc] at hs
    cases hs
  have habove : ∀ newNode level, (above m newNode level).filled = none ∨
      (above m newNode level).filled = some 0 ∨ (above m newNode level).filled = some MAX_LEVEL := by
    intro newNode level
    rw [above]
    split_ifs
    · exact .inr (.inl rfl)
    · exact .inl rfl
  cases hadv with
  | load hpc | marked hpc | less hpc | snip hpc =>
    exact hsame (by rw [hpc]; rfl) (.inr (.inl rfl))
  | retry hpc | refind hpc | relink hpc =>
    exact hsame (by rw [hpc]; rfl) (.inr (.inr rfl))
  | store hpc | stored hpc => exact hsame (by rw [hpc]; rfl) (.inr (.inl rfl))
  | linkBottom hpc | link hpc => exact hsame (by rw [hpc]; rfl) (habove _ _)
  | down hpc =>
    intro start hs k hk hmax
    rw [hpc] at hw
    cases hs
    exact Moves.stop_filled h hf hpc hw.1 hk hmax
  | found hpc =>
    intro start hs k hk hmax
    rw [hpc] at hw
    exact Moves.stop_filled h hf hpc hw.1 (Nat.zero_le _) hmax
  | @readMarked n level hpc =>
    refine hnone ?_
    cases hb : level - 1 <;> rfl
  | mine hpc =>
    intro start hs k hk hmax
    cases hs
    exact absurd hmax (not_lt.mpr hk)
  | read | remark | mark | readBottom | markBottom | unmarked | other | again => exact hnone rfl

/-- A word that gets marked is one with marked words above it. -/
lemma Moves.marks {m' : Memory A V} {l' : Local A V} {spurious : Bool}
    (hs : r.state (i + 1) = (r.state i).put m' t l')
    (hadv : Advance c (r.memory i) ((r.state i).thread t) spurious m' l')
    (hm : ((r.memory (i + 1)).next n k).marked) :
    ((r.memory i).next n k).marked ∨ MarkedAbove r i n k := by
  have hok := h.inv.ok t
  have hwrite : ∀ {b j} {p : Ptr A}, m' = (r.memory i).setNext b j p →
      (p.marked → MarkedAbove r i b j) → ((r.memory i).next n k).marked ∨ MarkedAbove r i n k := by
    intro b j p hm' hp
    rw [memory_succ hs, hm', setNext_next] at hm
    split_ifs at hm with hb
    · rw [hb.1, hb.2]
      exact .inr (hp hm)
    · exact .inl hm
  cases hadv with
  | snip | store | stored | linkBottom | link => exact hwrite rfl fun hp => by cases hp
  | mark hpc =>
    rw [hpc] at hok
    exact hwrite rfl fun _ => hok.2.2
  | markBottom hpc =>
    rw [hpc] at hok
    exact hwrite rfl fun _ => hok.2
  | _ =>
    rw [memory_succ hs] at hm
    exact .inl hm

lemma Moves.put {m' : Memory A V} {l' : Local A V} (hs : r.state (i + 1) = (r.state i).put m' t l')
    (hf : Filled r (i + 1) l') (hw : l'.pc.Walks r (i + 1) l'.op)
    (hmarks : ∀ n ∈ r.linked (i + 1), ∀ k, ((r.memory (i + 1)).next n k).marked →
      ((r.memory i).next n k).marked ∨ MarkedAbove r i n k) : Laned r (i + 1) where
  nested level := by
    rintro n (hn | hn)
    · rcases puts_cases hn with ⟨hz, -⟩ | ⟨u, hpc⟩
      · cases hz
      · have hwalk := h.laned.walks u
        rw [hpc] at hwalk
        exact lane_mono (hwalk level (Nat.lt_succ_self _))
    · exact lane_mono (h.laned.nested level hn)
  lane level hlevel := h.lane hlevel
  marks n hn k level hk hle hm := by
    rw [h.node hn] at hle
    rcases hmarks n hn k hm with hold | habove
    · rcases h.old hn with hn' | hn'
      · exact h.marked hn (h.laned.marks n hn' k level hk hle hold)
      · rw [hn'.unmarked] at hold
        cases hold
    · rcases Nat.eq_or_lt_of_le hk with rfl | hlt
      · exact hm
      · exact h.marked hn (habove level hlt hle)
  preds u := by
    by_cases hu : u = t
    · rw [hu, thread_self hs]
      exact hf
    · rw [thread_other hs hu]
      exact fun start hstart k hk hmax => lane_mono (h.laned.preds u start hstart k hk hmax)
  walks u := by
    by_cases hu : u = t
    · rw [hu, thread_self hs]
      exact hw
    · rw [thread_other hs hu]
      exact (h.laned.walks u).frame h (h.inv.ok u)

/-- A step that only starts or ends a call. -/
lemma Moves.quiet {m' : Memory A V} {l' : Local A V} (hs : r.state (i + 1) = (r.state i).put m' t l')
    (hf : l'.pc.filled = none ∨ l'.pc.filled = some MAX_LEVEL) (hw : l'.pc.Walks r i l'.op)
    (hnext : ∀ n ∈ r.linked (i + 1), (r.memory (i + 1)).next n = (r.memory i).next n) :
    Laned r (i + 1) := by
  have hok := h.next.ok t
  rw [thread_self hs] at hok
  refine h.put hs ?_ (hw.frame h hok) fun n hn k hm => .inl (by rwa [hnext n hn] at hm)
  intro start hstart k hk hmax
  rcases hf with hf | hf <;> rw [hf] at hstart <;> cases hstart
  exact absurd hmax (not_lt.mpr hk)

end Moves

section Run

variable (hclean : ∀ k < r.len, clean (r.state k) (r.act k))

include hclean

lemma Laned.moves (h : Laned r i) (hi : i < r.len) : Moves r i := by
  have hinv := inv_of_run r i hi.le
  have hupper := upper_of_run r i hi.le
  exact
    { inv := hinv
      next := inv_of_run r (i + 1) hi
      upper := hupper
      laned := h
      carries := carries_of_run r hi
      step level hlevel := h.steps hinv hupper hlevel rfl rfl (r.next i hi) (hclean i hi) }

end Run

end ObjectCache.LockFree
