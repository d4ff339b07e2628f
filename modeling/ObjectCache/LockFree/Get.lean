import ObjectCache.LockFree.Upper

/-! `LockFreeSkiplist::get`, which reads a pointer again until it names an unmarked node. -/

set_option linter.unusedSectionVars false

namespace ObjectCache.LockFree

open Lib

namespace Node

variable {V : Type}

def is_less_than_key (n : Node V) (key : ℤ) : Bool := n.key_high ≤ key

def is_equal_key (n : Node V) (key : ℤ) : Bool := n.key_low ≤ key && key < n.key_high

end Node

namespace Get

variable {A V T : Type} [DecidableEq A] [DecidableEq T] {c : Config A}

/-- Where a thread stands in `get`; `counts` says that it was called with a place for the accesses. -/
inductive Pc (A V : Type) where
  | idle
  /-- `curr = Unmark(pred->next[level].load())` -/
  | load (key : ℤ) (counts : Bool) (level : ℕ) (pred : A)
  /-- `succ = IsMarked(curr->next[level].load(), &marked)` -/
  | next (key : ℤ) (counts : Bool) (level : ℕ) (pred curr : A)
  /-- `*accesses = curr->accesses.fetch_add(1)` -/
  | count (curr : A)
  | done (result : Option V) (accesses : Option ℤ)
  deriving DecidableEq

structure State (A V T : Type) where
  list : LockFree.State A V T
  accesses : A → ℤ
  get : T → Pc A V

inductive Act (A V T : Type) where
  | list (a : LockFree.Act A V T)
  | get (t : T) (key : ℤ) (counts : Bool)
  | next (t : T)
  | ret (t : T)

def Node.result (n : Node V) (key : ℤ) : Option V := if n.is_equal_key key then n.value else none

/-- One load of `get`. -/
def advance (m : Memory A V) : Pc A V → Option (Pc A V)
  | .load key counts level pred =>
    match (m.next pred level).node with
    | some curr => some (.next key counts level pred curr)
    | none => none
  | .next key counts level pred curr =>
    let p := m.next curr level
    if p.marked then some (.load key counts level pred)
    else if (m.node curr).is_less_than_key key then
      match p.node with
      | some succ => some (.next key counts level curr succ)
      | none => none
    else
      match level with
      | 0 =>
        if counts && (m.node curr).is_equal_key key then some (.count curr)
        else some (.done (Node.result (m.node curr) key) none)
      | level + 1 => some (.load key counts level pred)
  | _ => none

def step (c : Config A) (s : State A V T) : Act A V T → Option (State A V T)
  | .list a =>
    match s.get a.thread, LockFree.step c s.list a with
    | .idle, some list =>
      match a with
      | .allocate _ newNode _ =>
        some { s with list := list, accesses := Function.update s.accesses newNode 0 }
      | _ => some { s with list := list }
    | _, _ => none
  | .get t key counts =>
    match s.get t, (s.list.thread t).pc with
    | .idle, .idle =>
      if INT_MIN ≤ key ∧ key ≤ INT_MAX then
        some { s with get := Function.update s.get t (.load key counts (MAX_LEVEL - 1) c.head) }
      else none
    | _, _ => none
  | .next t =>
    match s.get t with
    | .count curr =>
      some { s with
        accesses := Function.update s.accesses curr (Int.bmod (s.accesses curr + 1) (2 ^ 32))
        get := Function.update s.get t (.done (s.list.memory.node curr).value (some (s.accesses curr))) }
    | pc =>
      match advance s.list.memory pc with
      | some pc => some { s with get := Function.update s.get t pc }
      | none => none
  | .ret t =>
    match s.get t with
    | .done _ _ => some { s with get := Function.update s.get t .idle }
    | _ => none

def initial (c : Config A) : State A V T := ⟨LockFree.initial c, fun _ => 0, fun _ => .idle⟩

def machine (c : Config A) : Machine (State A V T) (Act A V T) where
  init s := s = initial c
  step := step c

/-! ### The way of a search -/

def Pc.isDone : Pc A V → Bool
  | .done _ _ => true
  | _ => false

def Pc.active : Pc A V → Bool
  | .idle => false
  | _ => true

/-- Some number of its own steps brings the `get` of the thread to its end. -/
def Finishes (c : Config A) (s : State A V T) (t : T) : Prop :=
  ∃ n s', (machine c).exec s (List.replicate n (.next t)) = some s' ∧ (s'.get t).isDone = true

/-- The positions, a level and a node on it, that the unmarked nodes and their keys lead to. -/
inductive Path (m : Memory A V) (key : ℤ) : ℕ → A → ℕ → A → Prop
  | here {level : ℕ} {pred : A} : Path m key level pred level pred
  | right {level level' : ℕ} {pred curr pred' : A} : (m.next pred level).node = some curr →
    (m.next curr level).marked = false → (m.node curr).is_less_than_key key = true →
    Path m key level curr level' pred' → Path m key level pred level' pred'
  | down {level level' : ℕ} {pred curr pred' : A} : (m.next pred (level + 1)).node = some curr →
    (m.next curr (level + 1)).marked = false → (m.node curr).is_less_than_key key = false →
    Path m key level pred level' pred' → Path m key (level + 1) pred level' pred'

/-- The position from which the next pointer is loaded. -/
def Pc.position (m : Memory A V) : Pc A V → Option (ℤ × ℕ × A)
  | .load key _ level pred => some (key, level, pred)
  | .next key _ level pred curr =>
    if (m.next curr level).marked then some (key, level, pred)
    else if (m.node curr).is_less_than_key key then some (key, level, curr)
    else
      match level with
      | 0 => none
      | level + 1 => some (key, level, pred)
  | _ => none

/-- The pointer at a position names a node that is not marked on the level. -/
def Open (m : Memory A V) (level : ℕ) (pred : A) : Prop :=
  ∃ curr, (m.next pred level).node = some curr ∧ (m.next curr level).marked = false

/-- All pointers on the way of the search name unmarked nodes. -/
def Through (m : Memory A V) (pc : Pc A V) : Prop :=
  ∀ key level pred, pc.position m = some (key, level, pred) →
    ∀ level' pred', Path m key level pred level' pred' → Open m level' pred'

/-! ### What a search knows -/

/-- A linked node with a pointer on the level, not behind the key. -/
structure Stands (c : Config A) (linked : Set A) (m : Memory A V) (key : ℤ) (level : ℕ) (pred : A) :
    Prop where
  linked : pred ∈ linked
  top : level ≤ (m.node pred).topLevel
  max : level < MAX_LEVEL
  high : (m.node pred).key_high ≤ key

def Pc.Ok (c : Config A) (linked : Set A) (m : Memory A V) : Pc A V → Prop
  | .load key _ level pred => Stands c linked m key level pred
  | .next key _ level pred curr => Stands c linked m key level pred ∧ Target c linked m level curr
  | _ => True

lemma is_less_than_key_iff {n : Node V} {key : ℤ} :
    n.is_less_than_key key = true ↔ n.key_high ≤ key := by
  rw [Node.is_less_than_key, decide_eq_true_iff]

variable {linked : Set A} {m : Memory A V}

lemma Stands.right {key : ℤ} {level : ℕ} {pred curr : A} (h : Stands c linked m key level pred)
    (ht : Target c linked m level curr) (hless : (m.node curr).is_less_than_key key = true) :
    Stands c linked m key level curr :=
  ⟨ht.linked, ht.level, h.max, is_less_than_key_iff.mp hless⟩

lemma Stands.down {key : ℤ} {level : ℕ} {pred : A} (h : Stands c linked m key (level + 1) pred) :
    Stands c linked m key level pred :=
  ⟨h.linked, by have := h.top; omega, by have := h.max; omega, h.high⟩

/-- The outcomes of a load. -/
inductive Advance (m : Memory A V) : Pc A V → Pc A V → Prop
  | load {key : ℤ} {counts : Bool} {level : ℕ} {pred curr : A} : (m.next pred level).node = some curr →
    Advance m (.load key counts level pred) (.next key counts level pred curr)
  | again {key : ℤ} {counts : Bool} {level : ℕ} {pred curr : A} : (m.next curr level).marked = true →
    Advance m (.next key counts level pred curr) (.load key counts level pred)
  | right {key : ℤ} {counts : Bool} {level : ℕ} {pred curr succ : A} :
    (m.next curr level).marked = false → (m.node curr).is_less_than_key key = true →
    (m.next curr level).node = some succ →
    Advance m (.next key counts level pred curr) (.next key counts level curr succ)
  | down {key : ℤ} {counts : Bool} {level : ℕ} {pred curr : A} :
    (m.next curr (level + 1)).marked = false → (m.node curr).is_less_than_key key = false →
    Advance m (.next key counts (level + 1) pred curr) (.load key counts level pred)
  | last {key : ℤ} {counts : Bool} {pred curr : A} {pc : Pc A V} : (m.next curr 0).marked = false →
    (m.node curr).is_less_than_key key = false → (pc.isDone = true ∨ pc = .count curr) →
    Advance m (.next key counts 0 pred curr) pc

lemma advance_cases {pc pc' : Pc A V} (h : advance m pc = some pc') : Advance m pc pc' := by
  cases pc with
  | load key counts level pred =>
    simp only [advance] at h
    split at h
    · rename_i curr hcurr
      cases h
      exact .load hcurr
    · cases h
  | next key counts level pred curr =>
    have hright : ∀ {k : ℕ}, (m.next curr k).marked = false →
        (m.node curr).is_less_than_key key = true →
        (match (m.next curr k).node with
          | some succ => some (Pc.next key counts k curr succ)
          | none => none) = some pc' → Advance m (.next key counts k pred curr) pc' := by
      intro k hm hless h
      split at h
      · rename_i succ hsucc
        cases h
        exact .right hm hless hsucc
      · cases h
    cases level with
    | zero =>
      simp only [advance] at h
      split_ifs at h with hm hless hcount
      · cases h
        exact .again hm
      · exact hright (by simpa using hm) hless h
      · cases h
        exact .last (by simpa using hm) (by simpa using hless) (.inr rfl)
      · cases h
        exact .last (by simpa using hm) (by simpa using hless) (.inl rfl)
    | succ level =>
      simp only [advance] at h
      split_ifs at h with hm hless
      · cases h
        exact .again hm
      · exact hright (by simpa using hm) hless h
      · cases h
        exact .down (by simpa using hm) (by simpa using hless)
  | idle | count | done => cases h

lemma Advance.ok (h : Links c linked m) {pc pc' : Pc A V} (ha : Advance m pc pc')
    (hok : pc.Ok c linked m) : pc'.Ok c linked m := by
  cases ha with
  | load hcurr => exact ⟨hok, h.target hok.linked hcurr⟩
  | again => exact hok.1
  | right hm hless hsucc =>
    obtain ⟨hs, ht⟩ := hok
    exact ⟨hs.right ht hless, h.target ht.linked hsucc⟩
  | down => exact hok.1.down
  | last hm hless hpc =>
    rcases hpc with hpc | rfl
    · cases pc' <;> simp_all [Pc.isDone, Pc.Ok]
    · trivial

/-! ### Termination -/

/-- Loads alone bring the search to its last one. -/
inductive Ends (m : Memory A V) : Pc A V → Prop
  | done {pc : Pc A V} : pc.isDone = true → Ends m pc
  | count (curr : A) : Ends m (.count curr)
  | step {pc pc' : Pc A V} : advance m pc = some pc' → Ends m pc' → Ends m pc

lemma advance_load {key : ℤ} {counts : Bool} {level : ℕ} {pred curr : A}
    (h : (m.next pred level).node = some curr) :
    advance m (.load key counts level pred) = some (.next key counts level pred curr) := by
  simp [advance, h]

lemma advance_right {key : ℤ} {counts : Bool} {level : ℕ} {pred curr succ : A}
    (hm : (m.next curr level).marked = false) (hless : (m.node curr).is_less_than_key key = true)
    (h : (m.next curr level).node = some succ) :
    advance m (.next key counts level pred curr) = some (.next key counts level curr succ) := by
  simp [advance, hm, hless, h]

lemma advance_again {key : ℤ} {counts : Bool} {level : ℕ} {pred curr : A}
    (hm : (m.next curr level).marked = true) :
    advance m (.next key counts level pred curr) = some (.load key counts level pred) := by
  simp [advance, hm]

lemma advance_down {key : ℤ} {counts : Bool} {level : ℕ} {pred curr : A}
    (hm : (m.next curr (level + 1)).marked = false)
    (hless : (m.node curr).is_less_than_key key = false) :
    advance m (.next key counts (level + 1) pred curr) = some (.load key counts level pred) := by
  simp [advance, hm, hless]

lemma ends_last {key : ℤ} {counts : Bool} {pred curr : A} (hm : (m.next curr 0).marked = false)
    (hless : (m.node curr).is_less_than_key key = false) :
    Ends m (.next key counts 0 pred curr) := by
  cases hcount : counts && (m.node curr).is_equal_key key with
  | true => exact .step (by simp [advance, hm, hless, hcount]) (.count curr)
  | false =>
    have hdone : advance m (.next key counts 0 pred curr) = some (.done (Node.result (m.node curr) key) none) := by
      simp [advance, hm, hless, hcount]
    exact .step hdone (.done rfl)

/-- Nodes in order along the unmarked pointers, none of them empty. -/
structure Rising (c : Config A) (linked : Set A) (m : Memory A V) : Prop extends
    Links c linked m where
  sorted : Sorted linked m
  nonempty : ∀ n ∈ linked, n ≠ c.head → n ≠ c.tail → (m.node n).key_low < (m.node n).key_high

lemma Rising.lt (h : Rising c linked m) {key : ℤ} {level : ℕ} {pred curr : A}
    (hs : Stands c linked m key level pred) (hcurr : (m.next pred level).node = some curr)
    (hm : (m.next curr level).marked = false) (hopen : Open m level curr) :
    (m.node pred).key_high < (m.node curr).key_high := by
  have ht := h.target hs.linked hcurr
  have hbottom := h.bottom_unmarked ht.linked ht.level hm
  have hle := h.sorted level pred hs.linked hs.top curr (.next hcurr) hbottom
  have htail : curr ≠ c.tail := by
    rintro rfl
    obtain ⟨succ, hsucc, -⟩ := hopen
    rw [h.tail_next] at hsucc
    cases hsucc
  exact lt_of_le_of_lt hle (h.nonempty curr ht.linked ht.not_head htail)

/-- A search that goes down from every node of a level ends if the searches below do. -/
lemma Rising.ends_level (h : Rising c linked m) {key : ℤ} {counts : Bool} {level : ℕ}
    (hbelow : ∀ pred curr, Stands c linked m key level pred → (m.next curr level).marked = false →
      (m.node curr).is_less_than_key key = false → (m.next pred level).node = some curr →
      (∀ level' pred', Path m key level pred level' pred' → Open m level' pred') →
      Ends m (.next key counts level pred curr)) {n : ℕ} {pred curr : A}
    (hn : (key - (m.node pred).key_high).toNat < n) (hs : Stands c linked m key level pred)
    (hcurr : (m.next pred level).node = some curr)
    (hopen : ∀ level' pred', Path m key level pred level' pred' → Open m level' pred') :
    Ends m (.next key counts level pred curr) := by
  induction n generalizing pred curr with
  | zero => omega
  | succ n ih =>
    have hm : (m.next curr level).marked = false := by
      obtain ⟨other, hother, hm⟩ := hopen level pred .here
      rw [hcurr, Option.some.injEq] at hother
      exact hother ▸ hm
    cases hless : (m.node curr).is_less_than_key key with
    | false => exact hbelow pred curr hs hm hless hcurr hopen
    | true =>
      have hpath : ∀ level' pred', Path m key level curr level' pred' → Open m level' pred' :=
        fun level' pred' hp => hopen level' pred' (.right hcurr hm hless hp)
      have hright := hs.right (h.target hs.linked hcurr) hless
      have hlt := h.lt hs hcurr hm (hpath level curr .here)
      have hle := is_less_than_key_iff.mp hless
      obtain ⟨succ, hsucc, -⟩ := hpath level curr .here
      exact .step (advance_right hm hless hsucc) (ih (by omega) hright hsucc hpath)

lemma Rising.ends_next (h : Rising c linked m) {key : ℤ} {counts : Bool} {level : ℕ} {pred curr : A}
    (hs : Stands c linked m key level pred) (hcurr : (m.next pred level).node = some curr)
    (hopen : ∀ level' pred', Path m key level pred level' pred' → Open m level' pred') :
    Ends m (.next key counts level pred curr) := by
  induction level generalizing pred curr with
  | zero =>
    exact h.ends_level (fun _ _ _ hm hless _ _ => ends_last hm hless) (Nat.lt_succ_self _) hs hcurr hopen
  | succ level ih =>
    refine h.ends_level (fun pred curr hs hm hless hcurr hopen => ?_) (Nat.lt_succ_self _) hs hcurr hopen
    have hpath : ∀ level' pred', Path m key level pred level' pred' → Open m level' pred' :=
      fun level' pred' hp => hopen level' pred' (.down hcurr hm hless hp)
    obtain ⟨first, hfirst, -⟩ := hpath level pred .here
    exact .step (advance_down hm hless) (.step (advance_load hfirst) (ih hs.down hfirst hpath))

lemma Rising.ends_load (h : Rising c linked m) {key : ℤ} {counts : Bool} {level : ℕ} {pred : A}
    (hs : Stands c linked m key level pred)
    (hopen : ∀ level' pred', Path m key level pred level' pred' → Open m level' pred') :
    Ends m (.load key counts level pred) := by
  obtain ⟨curr, hcurr, -⟩ := hopen level pred .here
  exact .step (advance_load hcurr) (h.ends_next hs hcurr hopen)

/-- From any point of a search, also where it holds a node that its pointer no longer names. -/
lemma Rising.ends (h : Rising c linked m) {pc : Pc A V} (hactive : pc.active = true)
    (hok : pc.Ok c linked m) (hthrough : Through m pc) : Ends m pc := by
  cases pc with
  | idle => cases hactive
  | done => exact .done rfl
  | count curr => exact .count curr
  | load key counts level pred => exact h.ends_load hok (hthrough key level pred rfl)
  | next key counts level pred curr =>
    obtain ⟨hs, ht⟩ := hok
    cases hm : (m.next curr level).marked with
    | true =>
      refine .step (advance_again hm) (h.ends_load hs (hthrough key level pred ?_))
      simp [Pc.position, hm]
    | false =>
      cases hless : (m.node curr).is_less_than_key key with
      | true =>
        have hopen := hthrough key level curr (by simp [Pc.position, hm, hless])
        obtain ⟨succ, hsucc, -⟩ := hopen level curr .here
        exact .step (advance_right hm hless hsucc) (h.ends_next (hs.right ht hless) hsucc hopen)
      | false =>
        cases level with
        | zero => exact ends_last hm hless
        | succ level =>
          refine .step (advance_down hm hless) (h.ends_load hs.down (hthrough key level pred ?_))
          simp [Pc.position, hm, hless]

/-! ### A search that spins -/

/-- Somewhere on the way a pointer names no node, or a marked one. -/
def Blocked (m : Memory A V) (pc : Pc A V) : Prop :=
  ∃ key level pred, pc.position m = some (key, level, pred) ∧
    ∃ level' pred', Path m key level pred level' pred' ∧ ¬ Open m level' pred'

lemma blocked_iff {pc : Pc A V} : Blocked m pc ↔ ¬ Through m pc := by
  simp only [Blocked, Through, not_forall, exists_prop]

/-- The search stands before `curr`, and the block is on the way from there. -/
lemma blocked_next {key : ℤ} {counts : Bool} {level : ℕ} {pred curr : A}
    (hcurr : (m.next pred level).node = some curr) {level' : ℕ} {pred' : A}
    (hp : Path m key level pred level' pred') (hblock : ¬ Open m level' pred') :
    Blocked m (.next key counts level pred curr) := by
  cases hp with
  | here =>
    have hm : (m.next curr level).marked = true := by
      by_contra hm
      exact hblock ⟨curr, hcurr, by simpa using hm⟩
    exact ⟨key, level, pred, by simp [Pc.position, hm], level, pred, .here, hblock⟩
  | right hother hm hless hp =>
    rw [hcurr, Option.some.injEq] at hother
    subst hother
    exact ⟨key, level, curr, by simp [Pc.position, hm, hless], level', pred', hp, hblock⟩
  | @down level _ _ _ _ hother hm hless hp =>
    rw [hcurr, Option.some.injEq] at hother
    subst hother
    exact ⟨key, level, pred, by simp [Pc.position, hm, hless], level', pred', hp, hblock⟩

lemma Blocked.advance {pc pc' : Pc A V} (h : Blocked m pc) (ha : Advance m pc pc') :
    Blocked m pc' := by
  obtain ⟨key, level, pred, hpos, level', pred', hp, hblock⟩ := h
  cases ha with
  | load hcurr =>
    cases hpos
    exact blocked_next hcurr hp hblock
  | again hm =>
    simp only [Pc.position, hm, if_true, Option.some.injEq, Prod.mk.injEq] at hpos
    obtain ⟨rfl, rfl, rfl⟩ := hpos
    exact ⟨_, _, _, rfl, level', pred', hp, hblock⟩
  | right hm hless hsucc =>
    simp only [Pc.position, hm, hless, if_true, Bool.false_eq_true, if_false, Option.some.injEq,
      Prod.mk.injEq] at hpos
    obtain ⟨rfl, rfl, rfl⟩ := hpos
    exact blocked_next hsucc hp hblock
  | down hm hless =>
    simp only [Pc.position, hm, hless, Bool.false_eq_true, if_false, Option.some.injEq,
      Prod.mk.injEq] at hpos
    obtain ⟨rfl, rfl, rfl⟩ := hpos
    exact ⟨_, _, _, rfl, level', pred', hp, hblock⟩
  | last hm hless =>
    simp [Pc.position, hm, hless] at hpos

lemma Blocked.not_done {pc : Pc A V} (h : Blocked m pc) : pc.isDone = false ∧ ∀ curr, pc ≠ .count curr := by
  obtain ⟨key, level, pred, hpos, -⟩ := h
  cases pc <;> simp_all [Pc.position, Pc.isDone]

/-! ### Steps of the thread alone -/

variable {s s' : State A V T} {t : T}

lemma step_next {pc : Pc A V} (h : advance s.list.memory (s.get t) = some pc) :
    step c s (.next t) = some { s with get := Function.update s.get t pc } := by
  cases hpc : s.get t with
  | load | next =>
    rw [hpc] at h
    simp only [step, hpc, h]
  | idle | count | done =>
    rw [hpc] at h
    cases h

lemma step_next_cases (h : step c s (.next t) = some s') :
    (∃ curr, s.get t = .count curr) ∧ (∃ result accesses,
      s'.get = Function.update s.get t (.done result accesses)) ∧ s'.list = s.list ∨
    ∃ pc, advance s.list.memory (s.get t) = some pc ∧
      s' = { s with get := Function.update s.get t pc } := by
  cases hpc : s.get t with
  | count curr =>
    simp only [step, hpc, Option.some.injEq] at h
    subst h
    exact .inl ⟨⟨curr, rfl⟩, ⟨_, _, rfl⟩, rfl⟩
  | load | next =>
    simp only [step, hpc] at h
    split at h
    · rename_i pc ha
      cases h
      exact .inr ⟨pc, ha, rfl⟩
    · cases h
  | idle | done => simp [step, hpc, advance] at h

lemma finishes_step (hs : step c s (.next t) = some s') (h : Finishes c s' t) : Finishes c s t := by
  obtain ⟨n, last, hexec, hdone⟩ := h
  refine ⟨n + 1, last, ?_, hdone⟩
  rw [List.replicate_succ]
  simp only [Machine.exec]
  rw [show (machine c).step s (.next t) = some s' from hs]
  exact hexec

lemma Ends.finishes {pc : Pc A V} (h : Ends s.list.memory pc) (hpc : s.get t = pc) :
    Finishes c s t := by
  generalize hm : s.list.memory = m at h
  induction h generalizing s with
  | done hd => exact ⟨0, s, rfl, hpc ▸ hd⟩
  | @count curr =>
    have hs : Get.step c s (.next t) = some { s with
        accesses := Function.update s.accesses curr (Int.bmod (s.accesses curr + 1) (2 ^ 32))
        get := Function.update s.get t
          (.done (s.list.memory.node curr).value (some (s.accesses curr))) } := by
      simp only [Get.step, hpc]
    refine finishes_step hs ⟨0, _, rfl, ?_⟩
    simp [Pc.isDone]
  | @step pc pc' ha _ ih =>
    refine finishes_step (step_next (by rw [hm, hpc, ha])) (ih ?_ hm)
    exact Function.update_self ..

/-- A blocked search stays blocked, whatever it loads. -/
lemma blocked_exec {n : ℕ} (h : Blocked s.list.memory (s.get t))
    (hexec : (machine c).exec s (List.replicate n (.next t)) = some s') :
    Blocked s'.list.memory (s'.get t) := by
  induction n generalizing s with
  | zero =>
    cases hexec
    exact h
  | succ n ih =>
    rw [List.replicate_succ] at hexec
    simp only [Machine.exec, Option.bind_eq_some_iff] at hexec
    obtain ⟨mid, hmid, hrest⟩ := hexec
    refine ih ?_ hrest
    obtain ⟨-, hcount⟩ := h.not_done
    rcases step_next_cases (c := c) hmid with ⟨⟨curr, hpc⟩, -⟩ | ⟨pc, hpc, rfl⟩
    · exact absurd hpc (hcount curr)
    · simpa using h.advance (advance_cases hpc)

/-! ### Reachable states -/

/-- Some run of the other operations leads to the list, and every `get` stands on nodes that this run
has linked. -/
def Known (c : Config A) (s : State A V T) : Prop :=
  ∃ r : Trace c V T, r.state r.len = s.list ∧ ∀ t, (s.get t).Ok c (r.linked r.len) s.list.memory

lemma Pc.Ok.mono {linked' : Set A} {m' : Memory A V} {pc : Pc A V} (h : pc.Ok c linked m)
    (hl : linked ⊆ linked') (hnode : ∀ n ∈ linked, m'.node n = m.node n) : pc.Ok c linked' m' := by
  have hstands : ∀ {key level pred}, Stands c linked m key level pred →
      Stands c linked' m' key level pred := by
    intro key level pred hs
    refine ⟨hl hs.linked, ?_, hs.max, ?_⟩ <;> rw [hnode pred hs.linked]
    · exact hs.top
    · exact hs.high
  cases pc with
  | load => exact hstands h
  | next key counts level pred curr =>
    obtain ⟨hs, ht⟩ := h
    exact ⟨hstands hs, ht.mono hl (hnode curr ht.linked)⟩
  | idle | count | done => trivial

lemma linked_congr {r r' : Trace c V T} {i : ℕ} (hs : ∀ k < i, r'.state k = r.state k)
    (ha : ∀ k < i, r'.act k = r.act k) : r'.linked i = r.linked i := by
  induction i with
  | zero => rfl
  | succ i ih =>
    rw [Trace.linked, Trace.linked, hs i (Nat.lt_succ_self i), ha i (Nat.lt_succ_self i),
      ih (fun k hk => hs k (by omega)) fun k hk => ha k (by omega)]

lemma Known.list {a : LockFree.Act A V T} {list : LockFree.State A V T} (h : Known c s)
    (hs : LockFree.step c s.list a = some list) (hlist : s'.list = list) (hget : s'.get = s.get) :
    Known c s' := by
  obtain ⟨r, hr, hok⟩ := h
  have hstep : (LockFree.machine c).step (r.state r.len) a = some list := by
    rw [hr]
    exact hs
  obtain ⟨r', hr'⟩ : ∃ r' : Trace c V T, r' = r.snoc a list hstep := ⟨_, rfl⟩
  have hlen : r'.len = r.len + 1 := by rw [hr']; rfl
  have hcarries := carries_of_run r' (show r.len < r'.len by omega)
  have hlinked : r'.linked r.len = r.linked r.len := by
    refine linked_congr (fun k hk => ?_) fun k hk => ?_
    · simp [hr', Machine.Run.snoc, hk.le]
    · simp [hr', Machine.Run.snoc, hk]
  have hlast : r'.state (r.len + 1) = list := by
    simp [hr', Machine.Run.snoc]
  have hbefore : r'.memory r.len = s.list.memory := by
    simp [Trace.memory, hr', Machine.Run.snoc, hr]
  refine ⟨r', by rw [hlen, hlast, hlist], fun t => ?_⟩
  rw [hget, hlist, hlen]
  refine (hok t).mono (fun n hn => linked_mono (hlinked ▸ hn)) fun n hn => ?_
  rw [← hlinked] at hn
  have hsame := hcarries.same hn
  rw [Trace.memory, hlast, hbefore] at hsame
  exact hsame

lemma Known.put {pc : Pc A V} (h : Known c s) (hlist : s'.list = s.list)
    (hget : s'.get = Function.update s.get t pc)
    (hpc : ∀ linked, Links c linked s.list.memory → (s.get t).Ok c linked s.list.memory →
      pc.Ok c linked s.list.memory) : Known c s' := by
  obtain ⟨r, hr, hok⟩ := h
  have hlinks : Links c (r.linked r.len) s.list.memory := by
    have := (inv_of_run r r.len le_rfl).shape.toLinks
    rwa [Trace.memory, hr] at this
  refine ⟨r, hr.trans hlist.symm, fun u => ?_⟩
  rw [hlist, hget]
  by_cases hu : u = t
  · subst hu
    rw [Function.update_self]
    exact hpc _ hlinks (hok u)
  · rw [Function.update_of_ne hu]
    exact hok u

lemma list_of_step_list {a : LockFree.Act A V T} (h : step c s (.list a) = some s') :
    LockFree.step c s.list a = some s'.list ∧ s'.get = s.get := by
  simp only [step] at h
  split at h
  · rename_i list _ hlist
    cases a with
    | allocate | call | next | ret =>
      cases h
      exact ⟨hlist, rfl⟩
  · cases h

lemma list_of_step {a : Act A V T} (h : step c s a = some s') (ha : ∀ x, a ≠ .list x) :
    s'.list = s.list := by
  cases a with
  | list x => exact absurd rfl (ha x)
  | get t key counts =>
    simp only [step] at h
    split at h
    · split_ifs at h
      cases h
      rfl
    · cases h
  | next t =>
    rcases step_next_cases h with ⟨-, -, hlist⟩ | ⟨pc, -, rfl⟩
    · exact hlist
    · rfl
  | ret t =>
    simp only [step] at h
    split at h
    · cases h
      rfl
    · cases h

lemma known_step {a : Act A V T} (h : Known c s) (hs : step c s a = some s') : Known c s' := by
  cases a with
  | list a =>
    obtain ⟨hlist, hget⟩ := list_of_step_list hs
    exact h.list hlist rfl hget
  | get t key counts =>
    simp only [step] at hs
    split at hs
    · split_ifs at hs with hkey
      cases hs
      refine h.put rfl rfl fun linked hl _ => ⟨hl.head, ?_, by decide, ?_⟩
      · rw [hl.head_node]
        exact Nat.sub_le _ _
      · rw [hl.head_node]
        exact hkey.1
    · cases hs
  | next t =>
    rcases step_next_cases hs with ⟨-, ⟨result, accesses, hget⟩, hlist⟩ | ⟨pc, hpc, rfl⟩
    · exact h.put hlist hget fun _ _ _ => trivial
    · exact h.put rfl rfl fun linked hl hok => (advance_cases hpc).ok hl hok
  | ret t =>
    simp only [step] at hs
    split at hs
    · cases hs
      exact h.put rfl rfl fun _ _ _ => trivial
    · cases hs

lemma known_of_reachable (t : T) (h : (machine c).Reachable s) : Known c s := by
  refine h.invariant (I := Known c) (fun s hs => ?_) fun _ _ _ hk hs => known_step hk hs
  rw [show s = initial c from hs]
  have hstart : (LockFree.machine c : Machine (LockFree.State A V T) _).init (LockFree.initial c) := rfl
  exact ⟨⟨0, fun _ => LockFree.initial c, fun _ => .ret t, hstart, fun i hi => absurd hi (Nat.not_lt_zero i)⟩,
    rfl, fun _ => trivial⟩

lemma rising_of_run {r : Trace c V T} {list : LockFree.State A V T} (hr : r.state r.len = list) :
    Rising c (r.linked r.len) list.memory := by
  subst hr
  have hupper := upper_of_run r r.len le_rfl
  exact ⟨(inv_of_run r r.len le_rfl).shape.toLinks, hupper.sorted, hupper.nonempty⟩

/-- A `get` finishes by itself exactly if no pointer on its way names a marked node. -/
theorem finishes_iff (h : (machine c).Reachable s) (ha : (s.get t).active = true) :
    Finishes c s t ↔ Through s.list.memory (s.get t) := by
  constructor
  · rintro ⟨n, s', hexec, hdone⟩
    by_contra hnot
    have hblocked := blocked_exec (blocked_iff.mpr hnot) hexec
    rw [hblocked.not_done.1] at hdone
    cases hdone
  · intro hthrough
    obtain ⟨r, hr, hok⟩ := known_of_reachable t h
    exact ((rising_of_run hr).ends ha (hok t) hthrough).finishes rfl

/-! ### A node linked after its removal -/

/-- No other operation is in progress. -/
def Quiet (s : State A V T) (t : T) : Prop :=
  (∀ u, (s.list.thread u).pc = .idle) ∧ ∀ u, u ≠ t → s.get u = .idle

end Get

def pair : Config ℕ := ⟨0, 1, Nat.zero_ne_one⟩

/-- Thread `false` links a node on the bottom level, thread `true` removes it, and then `false` links
it on the level above. -/
def lateLink : List (Act ℕ ℕ Bool) :=
  .call false (.insert 10 20 (some 7)) :: .allocate false 2 1 :: List.replicate 35 (.next false false) ++
    .call true (.remove 10 20) :: List.replicate 73 (.next true false) ++
    [.ret true, .next false false, .ret false]

namespace Get

instance {A V : Type} : Inhabited (Act A V Bool) := ⟨.next false⟩

def spinning : (machine pair : Machine (State ℕ ℕ Bool) _).Run :=
  .ofActs _ (initial pair) (lateLink.map .list ++ .get true 15 false :: List.replicate 28 (.next true))
    rfl (by decide +kernel)

theorem finishes_iff_spinning : Finishes pair (spinning.state 143) true ↔
    Through (spinning.state 143).list.memory ((spinning.state 143).get true) :=
  finishes_iff (spinning.reachable 143 (by decide +kernel)) (by decide +kernel)

theorem not_finishes_spinning : ¬ ∀ (s : State ℕ ℕ Bool) (t : Bool), (machine pair).Reachable s →
    Quiet s t → (s.get t).active = true → Finishes pair s t := by
  intro h
  have hlast : (∀ u, ((spinning.state 143).list.thread u).pc = .idle) ∧
      (∀ u, u ≠ true → (spinning.state 143).get u = .idle) ∧
      (spinning.state 143).get true = .load 15 false 1 0 ∧
      ((spinning.state 143).list.memory.next 0 1).node = some 2 ∧
      ((spinning.state 143).list.memory.next 2 1).marked = true := by
    decide +kernel
  obtain ⟨hidle, hothers, hget, hnext, hmarked⟩ := hlast
  obtain ⟨n, s', hexec, hdone⟩ := h (spinning.state 143) true (spinning.reachable 143 (by decide +kernel))
    ⟨hidle, hothers⟩ (by rw [hget]; rfl)
  have hblocked : Blocked (spinning.state 143).list.memory ((spinning.state 143).get true) := by
    rw [hget]
    refine ⟨15, 1, 0, rfl, 1, 0, .here, ?_⟩
    rintro ⟨curr, hcurr, hunmarked⟩
    rw [hnext, Option.some.injEq] at hcurr
    subst hcurr
    rw [hmarked] at hunmarked
    cases hunmarked
  rw [(blocked_exec hblocked hexec).not_done.1] at hdone
  cases hdone

end Get

end ObjectCache.LockFree
