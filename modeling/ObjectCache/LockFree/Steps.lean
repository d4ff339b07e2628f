import ObjectCache.LockFree.Skiplist
import Mathlib.Tactic.SplitIfs

/-! Every step of the skip list, by what it requires and what it does. -/

set_option linter.unusedSectionVars false

namespace ObjectCache.LockFree

open Lib

variable {A V T : Type} [DecidableEq A] [DecidableEq T]

inductive Advance (c : Config A) (m : Memory A V) (l : Local A V) (spurious : Bool) :
    Memory A V → Local A V → Prop
  | load {site level pred curr} : l.pc = .load site level pred →
      (m.next pred level).node = some curr → Advance c m l spurious m (l.goto (.next site level pred curr))
  | marked {site level pred curr succ} : l.pc = .next site level pred curr →
      m.next curr level = ⟨succ, true⟩ → Advance c m l spurious m (l.goto (.snip site level pred curr succ))
  | less {site level pred curr succ} : l.pc = .next site level pred curr →
      m.next curr level = ⟨some succ, false⟩ → (m.node curr).is_less_than l.op.key_lb l.op.key_ub →
      Advance c m l spurious m (l.goto (.next site level curr succ))
  | down {site level pred curr} : l.pc = .next site (level + 1) pred curr →
      (m.next curr (level + 1)).marked = false →
      (m.node curr).is_less_than l.op.key_lb l.op.key_ub = false →
      Advance c m l spurious m ⟨l.stop (level + 1) pred curr, .load site level pred⟩
  | found {site pred curr} : l.pc = .next site 0 pred curr → (m.next curr 0).marked = false →
      (m.node curr).is_less_than l.op.key_lb l.op.key_ub = false →
      Advance c m l spurious m ⟨l.stop 0 pred curr, found m (l.stop 0 pred curr)
        ((m.node curr).is_equal l.op.key_lb l.op.key_ub) site⟩
  | snip {site level pred curr succ} : l.pc = .snip site level pred curr succ →
      m.next pred level = ⟨some curr, false⟩ →
      Advance c m l spurious (m.setNext pred level ⟨succ, false⟩) (l.goto (.load site level pred))
  | retry {site level pred curr succ} : l.pc = .snip site level pred curr succ →
      Advance c m l spurious m (l.goto (retry c site))
  | store {newNode level} : l.pc = .store newNode level → level < (m.node newNode).topLevel →
      Advance c m l spurious (m.setNext newNode level ⟨some (l.succs level), false⟩)
        (l.goto (.store newNode (level + 1)))
  | stored {newNode level} : l.pc = .store newNode level → (m.node newNode).topLevel ≤ level →
      Advance c m l spurious (m.setNext newNode level ⟨some (l.succs level), false⟩)
        (l.goto (.linkBottom newNode))
  | linkBottom {newNode} : l.pc = .linkBottom newNode →
      cas m spurious (l.preds 0) 0 (some (l.succs 0)) →
      Advance c m l spurious (m.setNext (l.preds 0) 0 ⟨some newNode, false⟩) (l.goto (above m newNode 1))
  | refind {newNode} : l.pc = .linkBottom newNode →
      ¬ cas m spurious (l.preds 0) 0 (some (l.succs 0)) →
      Advance c m l spurious m (l.goto (LockFree.retry c (.insert newNode)))
  | link {newNode level} : l.pc = .link newNode level →
      m.next (l.preds level) level = ⟨some (l.succs level), false⟩ →
      Advance c m l spurious (m.setNext (l.preds level) level ⟨some newNode, false⟩)
        (l.goto (above m newNode (level + 1)))
  | relink {newNode level} : l.pc = .link newNode level →
      Advance c m l spurious m (l.goto (LockFree.retry c (.link newNode level)))
  | readMarked {nodeToRemove level} : l.pc = .read nodeToRemove level →
      (m.next nodeToRemove level).marked → Advance c m l spurious m (l.goto (below nodeToRemove (level - 1)))
  | read {nodeToRemove level succ} : l.pc = .read nodeToRemove level →
      m.next nodeToRemove level = ⟨succ, false⟩ →
      Advance c m l spurious m (l.goto (.mark nodeToRemove level succ))
  | mark {nodeToRemove level succ} : l.pc = .mark nodeToRemove level succ →
      m.next nodeToRemove level = ⟨succ, false⟩ →
      Advance c m l spurious (m.setNext nodeToRemove level ⟨succ, true⟩) (l.goto (.read nodeToRemove level))
  | remark {nodeToRemove level succ} : l.pc = .mark nodeToRemove level succ →
      Advance c m l spurious m (l.goto (.read nodeToRemove level))
  | readBottom {nodeToRemove} : l.pc = .readBottom nodeToRemove →
      Advance c m l spurious m (l.goto (.markBottom nodeToRemove (m.next nodeToRemove 0).node))
  | markBottom {nodeToRemove succ} : l.pc = .markBottom nodeToRemove succ →
      cas m spurious nodeToRemove 0 succ →
      Advance c m l spurious (m.setNext nodeToRemove 0 ⟨succ, true⟩) (l.goto (.check nodeToRemove true))
  | unmarked {nodeToRemove succ} : l.pc = .markBottom nodeToRemove succ →
      ¬ cas m spurious nodeToRemove 0 succ →
      Advance c m l spurious m (l.goto (.check nodeToRemove false))
  | mine {nodeToRemove} : l.pc = .check nodeToRemove true →
      Advance c m l spurious m (l.goto (LockFree.retry c (.unlink nodeToRemove)))
  | other {nodeToRemove} : l.pc = .check nodeToRemove false → (m.next (l.succs 0) 0).marked →
      Advance c m l spurious m (l.goto (.done (.pointer none)))
  | again {nodeToRemove succ} : l.pc = .check nodeToRemove false →
      m.next (l.succs 0) 0 = ⟨succ, false⟩ → Advance c m l spurious m (l.goto (.markBottom nodeToRemove succ))

variable {c : Config A} {m m' : Memory A V} {l l' : Local A V} {spurious : Bool}

lemma ptr_eq {p : Ptr A} (h : ¬ p.marked) : p = ⟨p.node, false⟩ := by
  obtain ⟨node, marked⟩ := p
  simpa using h

lemma ptr_eq_marked {p : Ptr A} (h : p.marked) : p = ⟨p.node, true⟩ := by
  obtain ⟨node, marked⟩ := p
  simpa using h

lemma next_of_cas {a : A} {level : ℕ} {expected : Option A} (h : cas m spurious a level expected) :
    m.next a level = ⟨expected, false⟩ := by
  rw [cas, Bool.and_eq_true, decide_eq_true_iff] at h
  exact h.2

lemma advance_next {site : Site A} {level : ℕ} {pred curr : A} (hpc : l.pc = .next site level pred curr)
    (h : advance c m l spurious = some (m', l')) : Advance c m l spurious m' l' := by
  rw [advance] at h
  simp only [hpc] at h
  split_ifs at h with hmarked hless
  · cases h
    exact .marked hpc (ptr_eq_marked hmarked)
  · cases hn : (m.next curr level).node with
    | none => simp [hn] at h
    | some succ =>
      simp only [hn, Option.some.injEq, Prod.mk.injEq] at h
      obtain ⟨rfl, rfl⟩ := h
      exact .less hpc ((ptr_eq hmarked).trans (by rw [hn])) hless
  · have hm : (m.next curr level).marked = false := by simpa using hmarked
    have hl : (m.node curr).is_less_than l.op.key_lb l.op.key_ub = false := by simpa using hless
    cases level with
    | zero =>
      cases h
      exact .found hpc hm hl
    | succ level =>
      cases h
      exact .down hpc hm hl

lemma advance_cases (h : advance c m l spurious = some (m', l')) : Advance c m l spurious m' l' := by
  cases hpc : l.pc with
  | next site level pred curr => exact advance_next hpc h
  | load site level pred =>
    simp only [advance, hpc] at h
    cases hn : (m.next pred level).node with
    | none => simp [hn] at h
    | some curr =>
      simp only [hn, Option.some.injEq, Prod.mk.injEq] at h
      obtain ⟨rfl, rfl⟩ := h
      exact .load hpc hn
  | snip site level pred curr succ =>
    simp only [advance, hpc] at h
    split_ifs at h with hcas
    · cases h
      exact .snip hpc (next_of_cas hcas)
    · cases h
      exact .retry hpc
  | store newNode level =>
    simp only [advance, hpc] at h
    split_ifs at h with hlevel
    · cases h
      exact .store hpc hlevel
    · cases h
      exact .stored hpc (by omega)
  | linkBottom newNode =>
    simp only [advance, hpc] at h
    split_ifs at h with hcas
    · cases h
      exact .linkBottom hpc hcas
    · cases h
      exact .refind hpc hcas
  | link newNode level =>
    simp only [advance, hpc] at h
    split_ifs at h with hcas
    · cases h
      exact .link hpc (next_of_cas hcas)
    · cases h
      exact .relink hpc
  | read nodeToRemove level =>
    simp only [advance, hpc] at h
    split_ifs at h with hmarked
    · cases h
      exact .readMarked hpc hmarked
    · cases h
      exact .read hpc (ptr_eq hmarked)
  | mark nodeToRemove level succ =>
    simp only [advance, hpc] at h
    split_ifs at h with hcas
    · cases h
      exact .mark hpc (next_of_cas hcas)
    · cases h
      exact .remark hpc
  | readBottom nodeToRemove =>
    simp only [advance, hpc] at h
    cases h
    exact .readBottom hpc
  | markBottom nodeToRemove succ =>
    simp only [advance, hpc] at h
    split_ifs at h with hcas
    · cases h
      exact .markBottom hpc hcas
    · cases h
      exact .unmarked hpc hcas
  | check nodeToRemove iMarkedIt =>
    simp only [advance, hpc] at h
    split_ifs at h with hmine hmarked
    · cases h
      subst hmine
      exact .mine hpc
    · cases h
      simp only [Bool.not_eq_true] at hmine
      subst hmine
      exact .other hpc hmarked
    · cases h
      simp only [Bool.not_eq_true] at hmine
      subst hmine
      exact .again hpc (ptr_eq hmarked)
  | idle => simp [advance, hpc] at h
  | allocate => simp [advance, hpc] at h
  | done ret => simp [advance, hpc] at h

/-- Where a call starts. -/
def Op.start (c : Config A) : Op V → Pc A V
  | .find _ _ => retry c .find
  | .insert _ _ _ => .allocate
  | .remove _ _ => retry c .remove

inductive Step (c : Config A) (s : State A V T) : Act A V T → State A V T → Prop
  | call {t op} : (s.thread t).pc = .idle → op.Legal →
      Step c s (.call t op) (s.put s.memory t ⟨{ (s.thread t).toVars with op := op }, op.start c⟩)
  | allocate {t newNode topLevel lb ub x} : (s.thread t).pc = .allocate →
      (s.thread t).op = .insert lb ub x → newNode ∉ s.memory.allocated → topLevel < MAX_LEVEL →
      Step c s (.allocate t newNode topLevel) (s.put
        ⟨Function.update s.memory.node newNode ⟨topLevel, lb, ub, x⟩,
          Function.update s.memory.next newNode fun _ => ⟨none, false⟩,
          newNode :: s.memory.allocated⟩ t ((s.thread t).goto (retry c (.insert newNode))))
  | next {t spurious m l} : Advance c s.memory (s.thread t) spurious m l →
      Step c s (.next t spurious) (s.put m t l)
  | ret {t r} : (s.thread t).pc = .done r →
      Step c s (.ret t) (s.put s.memory t ((s.thread t).goto .idle))

lemma step_cases {s s' : State A V T} {a : Act A V T} (h : step c s a = some s') :
    Step c s a s' := by
  cases a with
  | call t op =>
    simp only [step] at h
    cases hpc : (s.thread t).pc with
    | idle =>
      simp only [hpc] at h
      split_ifs at h with hop
      cases op with
      | find lb ub =>
        cases h
        exact .call hpc hop
      | insert lb ub x =>
        cases h
        exact .call hpc hop
      | remove lb ub =>
        cases h
        exact .call hpc hop
    | _ => simp [hpc] at h
  | allocate t newNode topLevel =>
    simp only [step] at h
    cases hpc : (s.thread t).pc with
    | allocate =>
      cases hop : (s.thread t).op with
      | insert lb ub x =>
        simp only [hpc, hop] at h
        split_ifs at h with hn
        cases h
        rw [not_or] at hn
        exact .allocate hpc hop hn.1 (by omega)
      | find lb ub => simp [hpc, hop] at h
      | remove lb ub => simp [hpc, hop] at h
    | _ => simp [hpc] at h
  | next t spurious =>
    rw [step, Option.map_eq_some_iff] at h
    obtain ⟨⟨m, l⟩, ha, rfl⟩ := h
    exact .next (advance_cases ha)
  | ret t =>
    rw [step] at h
    cases hpc : (s.thread t).pc with
    | done r =>
      simp only [hpc, Option.some.injEq] at h
      subst h
      exact .ret hpc
    | _ => simp [hpc] at h

end ObjectCache.LockFree
