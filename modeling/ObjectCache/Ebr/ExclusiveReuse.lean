import ObjectCache.Ebr.Grace

/-! Reuse of a deallocated object: it is exclusive when no thread that is still operating leads
the deallocating one. -/

namespace ObjectCache.Ebr

open Lib

set_option linter.unusedSectionVars false

variable {T Obj : Type} [DecidableEq T] [DecidableEq Obj] {c : Config T}

abbrev Run (c : Config T) (Obj : Type) [DecidableEq Obj] := (machine c Obj).Run

def Deallocates (r : Run c Obj) (i : ℕ) (t : T) (x : Obj) : Prop :=
  i < r.len ∧ r.act i = .deallocate t x

def Allocates (r : Run c Obj) (i : ℕ) (t : T) (x : Obj) : Prop :=
  i < r.len ∧ ∃ fresh, r.act i = .allocate t fresh ∧ (r.state i).allocated t fresh = x

/-- An operation ends when its thread enters `match_version`. -/
def EndsOperation (r : Run c Obj) (i : ℕ) (t : T) : Prop :=
  i < r.len ∧ ∃ override_epoch, r.act i = .matchVersion t override_epoch

/-- A deallocated object is not allocated before every operation then running has ended. -/
def ExclusiveReuse (r : Run c Obj) : Prop :=
  ∀ i j t u x, Deallocates r i t x → Allocates r j u x → i < j →
    ∀ w, (r.state i).pc w = .operating → ∃ k, i < k ∧ k < j ∧ EndsOperation r k w

/-- No other operating thread, `k` hops before this one on the ring, has a slot from which the
slot of this thread can move up twice. -/
def SafeDeallocate (s : State c Obj) (t : T) : Prop :=
  ∀ u k, u ≠ t → s.pc u = .operating → 1 ≤ k → k ≤ c.nodes → c.next^[k] (c.home u) = c.home t →
    s.thread_slots u + k ≤ s.thread_slots t + 1

/-- The object is on the free lists of one thread, two rotations away from reuse. -/
structure Held (slot : ℕ) (t : T) (x : Obj) (s : State c Obj) : Prop where
  mem : x ∈ (s.limbo t).all
  alone : ∀ u, u ≠ t → x ∉ (s.limbo u).all
  third : slot ≤ s.thread_slots t
  second : x ∈ (s.limbo t).second → slot + 1 ≤ s.thread_slots t
  first : x ∈ (s.limbo t).first → slot + 2 ≤ s.thread_slots t

lemma LimboLists.mem_all {l : LimboLists Obj} {x : Obj} :
    x ∈ l.all ↔ x ∈ l.first ∨ x ∈ l.second ∨ x ∈ l.third := by
  simp [LimboLists.all]

lemma unlisted_iff {s : State c Obj} {x : Obj} :
    s.unlisted x = true ↔ ∀ t, x ∉ (s.limbo t).all := by
  simp only [State.unlisted, List.all_eq_true, decide_eq_true_eq]
  constructor
  · exact fun h t => h (c.home t) (List.mem_finRange _) t ((c.mem_members _ t).mpr rfl)
  · exact fun h n _ t _ => h t

lemma Held.not_unlisted {slot : ℕ} {t : T} {x y : Obj} {s : State c Obj} (h : Held slot t x s)
    (hy : s.unlisted y = true) : x ≠ y := by
  rintro rfl
  exact unlisted_iff.mp hy t h.mem

lemma Held.setLimbo {slot : ℕ} {t u : T} {x : Obj} {s : State c Obj} {l : LimboLists Obj}
    (h : Held slot t x s) (h1 : x ∈ l.first ↔ x ∈ (s.limbo u).first)
    (h2 : x ∈ l.second ↔ x ∈ (s.limbo u).second) (h3 : x ∈ l.third ↔ x ∈ (s.limbo u).third) :
    Held slot t x (s.setLimbo u l) := by
  have hall : x ∈ l.all ↔ x ∈ (s.limbo u).all := by
    rw [LimboLists.mem_all, LimboLists.mem_all, h1, h2, h3]
  have hl : ∀ w, ((s.setLimbo u l).limbo w = s.limbo w ∧ w ≠ u) ∨
      ((s.setLimbo u l).limbo w = l ∧ w = u) := fun w => by
    by_cases hw : w = u
    · subst hw
      exact .inr ⟨Function.update_self .., rfl⟩
    · exact .inl ⟨Function.update_of_ne hw .., hw⟩
  refine ⟨?_, fun w hw => ?_, h.third, fun hm => ?_, fun hm => ?_⟩
  · rcases hl t with ⟨he, -⟩ | ⟨he, rfl⟩ <;> rw [he]
    · exact h.mem
    · exact hall.mpr h.mem
  · rcases hl w with ⟨he, -⟩ | ⟨he, rfl⟩ <;> rw [he]
    · exact h.alone w hw
    · exact fun hm => h.alone w hw (hall.mp hm)
  · rcases hl t with ⟨he, -⟩ | ⟨he, rfl⟩ <;> rw [he] at hm
    · exact h.second hm
    · exact h.second (h2.mp hm)
  · rcases hl t with ⟨he, -⟩ | ⟨he, rfl⟩ <;> rw [he] at hm
    · exact h.first hm
    · exact h.first (h1.mp hm)

lemma Held.congr {slot : ℕ} {t : T} {x : Obj} {s s' : State c Obj} (h : Held slot t x s)
    (hl : s'.limbo = s.limbo) (hs : s'.thread_slots = s.thread_slots) : Held slot t x s' where
  mem := by rw [hl]; exact h.mem
  alone := by rw [hl]; exact h.alone
  third := by rw [hs]; exact h.third
  second := by rw [hl, hs]; exact h.second
  first := by rw [hl, hs]; exact h.first

/-- A rotation moves the object one list on and the slot of its thread up. -/
lemma Held.rotate {slot v : ℕ} {t u : T} {x : Obj} {s : State c Obj} (h : Held slot t x s)
    (hv : s.thread_slots u < v) :
    Held slot t x (State.setLimbo { s with thread_slots := Function.update s.thread_slots u v } u
      (s.limbo u).rotate) := by
  have hall : ∀ l : LimboLists Obj, x ∈ l.rotate.all ↔ x ∈ l.all := fun l => by
    rw [LimboLists.mem_all, LimboLists.mem_all]
    simp only [LimboLists.rotate]
    tauto
  by_cases hu : u = t
  · subst hu
    have hthird := h.third
    refine ⟨?_, fun w hw => ?_, ?_, fun hm => ?_, fun hm => ?_⟩
    · simpa [State.setLimbo] using (hall _).mpr h.mem
    · simpa [State.setLimbo, hw] using h.alone w hw
    · simp only [State.setLimbo, Function.update_self]
      omega
    · simp only [State.setLimbo, Function.update_self]
      omega
    · simp only [State.setLimbo, Function.update_self] at hm ⊢
      have hsecond := h.second hm
      omega
  · have ht : t ≠ u := Ne.symm hu
    refine ⟨?_, fun w hw => ?_, ?_, fun hm => ?_, fun hm => ?_⟩
    · simpa [State.setLimbo, ht] using h.mem
    · by_cases hwu : w = u
      · subst hwu
        simpa [State.setLimbo, hall] using h.alone w hw
      · simpa [State.setLimbo, hwu] using h.alone w hw
    · simpa [State.setLimbo, ht] using h.third
    · simp only [State.setLimbo, ne_eq, ht, not_false_eq_true, Function.update_of_ne] at hm ⊢
      exact h.second hm
    · simp only [State.setLimbo, ne_eq, ht, not_false_eq_true, Function.update_of_ne] at hm ⊢
      exact h.first hm

lemma held_matchStep {slot : ℕ} {t u : T} {x : Obj} {s s' : State c Obj} (h : Held slot t x s)
    (hs : matchStep s u = some s') : Held slot t x s' := by
  unfold matchStep at hs
  cases hpc : s.pc u with
  | operating => simp [hpc] at hs
  | storeSlot v =>
    simp only [hpc] at hs
    split_ifs at hs with hv <;> cases hs
    · exact (h.rotate hv).congr rfl rfl
    · exact h.congr rfl rfl
  | checkSlots v left =>
    cases left <;> simp only [hpc, Option.some.injEq] at hs <;> subst hs <;> exact h.congr rfl rfl
  | writeNext v =>
    simp only [hpc] at hs
    split_ifs at hs <;> cases hs <;> exact h.congr rfl rfl
  | readVersion | loadAt v | exchangeAt v | incCycles v =>
    simp only [hpc, Option.some.injEq] at hs
    subst hs
    exact h.congr rfl rfl

theorem held_step {slot : ℕ} {t : T} {x : Obj} {s s' : State c Obj} {a : Act c Obj}
    (h : Held slot t x s) (hs : step s a = some s')
    (ha : ∀ u fresh, a = .allocate u fresh → s.allocated u fresh ≠ x) : Held slot t x s' := by
  cases a with
  | deallocate u y =>
    simp only [step] at hs
    split at hs
    · rename_i hy
      cases hs
      have hxy := h.not_unlisted hy
      exact h.setLimbo Iff.rfl Iff.rfl (by simp [hxy])
    · cases hs
  | requeue u y =>
    simp only [step] at hs
    split at hs
    · rename_i hy
      cases hs
      have hxy := h.not_unlisted hy
      exact h.setLimbo (by simp [hxy]) Iff.rfl Iff.rfl
    · cases hs
  | allocate u fresh =>
    simp only [step] at hs
    split at hs
    · cases hs
      exact h
    · rename_i y rest _ hfirst
      cases hs
      have hxy : y ≠ x := by simpa [State.allocated, hfirst] using ha u fresh rfl
      exact h.setLimbo (by simp [hfirst, hxy.symm]) Iff.rfl Iff.rfl
    · cases hs
  | matchVersion u o =>
    simp only [step] at hs
    split at hs
    · split_ifs at hs <;> cases hs <;> exact h.congr rfl rfl
    · cases hs
  | next u => exact held_matchStep h hs
  | deliver n k =>
    simp only [step] at hs
    split at hs <;> cases hs
    exact h.congr rfl rfl

/-- A deallocated object starts out on the last list. -/
lemma held_deallocate {t : T} {x : Obj} {s s' : State c Obj}
    (hs : step s (.deallocate t x) = some s') : Held (s.thread_slots t) t x s' := by
  simp only [step] at hs
  split at hs
  · rename_i hx
    cases hs
    have hx := unlisted_iff.mp hx
    have ht := hx t
    simp only [LimboLists.mem_all, not_or] at ht
    refine ⟨?_, fun u hu => ?_, le_rfl, fun hm => ?_, fun hm => ?_⟩
    · simp [State.setLimbo, LimboLists.mem_all]
    · simpa [State.setLimbo, hu] using hx u
    · simp only [State.setLimbo, Function.update_self] at hm
      exact absurd hm ht.2.1
    · simp only [State.setLimbo, Function.update_self] at hm
      exact absurd hm ht.1
  · cases hs

/-- It is handed out only from the first list. -/
lemma held_allocate {slot : ℕ} {t u : T} {x fresh : Obj} {s s' : State c Obj}
    (h : Held slot t x s) (hs : step s (.allocate u fresh) = some s')
    (hx : s.allocated u fresh = x) : slot + 2 ≤ s.thread_slots t := by
  simp only [step] at hs
  split at hs
  · rename_i hfirst hfresh
    have : fresh = x := by simpa [State.allocated, hfirst] using hx
    exact absurd this.symm (h.not_unlisted hfresh)
  · rename_i y rest _ hfirst
    have hy : y = x := by simpa [State.allocated, hfirst] using hx
    have hm : x ∈ (s.limbo u).first := by simp [hfirst, hy]
    by_cases hu : u = t
    · exact h.first (hu ▸ hm)
    · exact absurd (LimboLists.mem_all.mpr (.inl hm)) (h.alone u hu)
  · cases hs

/-- A thread leaves its operation, and moves its slot, only through `match_version`. -/
lemma operating_step {w : T} {s s' : State c Obj} {a : Act c Obj} (hw : s.pc w = .operating)
    (hs : step s a = some s') (ha : ∀ o, a ≠ .matchVersion w o) :
    s'.pc w = .operating ∧ s'.thread_slots w = s.thread_slots w := by
  cases a with
  | deallocate t x | requeue t x | allocate t x =>
    simp only [step] at hs
    split at hs <;> cases hs <;> exact ⟨hw, rfl⟩
  | matchVersion t o =>
    have ht : w ≠ t := fun h => ha o (by rw [h])
    simp only [step] at hs
    split at hs
    · split_ifs at hs <;> cases hs
      · exact ⟨hw, rfl⟩
      · simp [State.setPc, ht, hw]
    · cases hs
  | next t =>
    have ht : w ≠ t := by
      rintro rfl
      simp [step, matchStep, hw] at hs
    simp only [step, matchStep] at hs
    cases hpc : s.pc t with
    | operating => simp [hpc] at hs
    | storeSlot v | writeNext v =>
      simp only [hpc] at hs
      split_ifs at hs <;> cases hs <;> simp [State.setPc, State.setLimbo, ht, hw]
    | checkSlots v left =>
      cases left <;> simp only [hpc, Option.some.injEq] at hs <;> subst hs <;>
        simp [State.setPc, ht, hw]
    | readVersion | loadAt v | exchangeAt v | incCycles v =>
      simp only [hpc, Option.some.injEq] at hs
      subst hs
      simp [State.setPc, ht, hw]
  | deliver n k =>
    simp only [step] at hs
    split at hs <;> cases hs
    exact ⟨hw, rfl⟩

/-! ### Runs -/

variable (r : Run c Obj)

lemma run_inv (i : ℕ) (hi : i ≤ r.len) : Inv (r.state i) :=
  (r.reachable i hi).invariant (fun _ => inv_initial) fun _ _ _ => inv_step

lemma held_until {i j : ℕ} {t : T} {x : Obj} (hd : Deallocates r i t x) (hj : j ≤ r.len)
    (hij : i < j) (hno : ∀ k u, i < k → k < j → ¬ Allocates r k u x) :
    Held ((r.state i).thread_slots t) t x (r.state j) := by
  have hstart : Held ((r.state i).thread_slots t) t x (r.state (i + 1)) :=
    held_deallocate (hd.2 ▸ r.next i hd.1)
  refine r.from_on (I := fun _ s => Held ((r.state i).thread_slots t) t x s) hj hstart
    (fun k hk hkj h hs => held_step h hs fun u fresh ha hx => ?_) j hij le_rfl
  exact hno k u hk hkj ⟨by omega, fresh, ha, hx⟩

lemma operating_until {i j : ℕ} {w : T} (hw : (r.state i).pc w = .operating) (hj : j ≤ r.len)
    (hij : i ≤ j) (hno : ∀ k, i ≤ k → k < j → ¬ EndsOperation r k w) :
    (r.state j).pc w = .operating ∧
      (r.state j).thread_slots w = (r.state i).thread_slots w := by
  refine r.from_on (I := fun _ s => s.pc w = .operating ∧
      s.thread_slots w = (r.state i).thread_slots w) hj ⟨hw, rfl⟩ (fun k hk hkj h hs => ?_)
    j hij le_rfl
  obtain ⟨hpc, hslot⟩ := operating_step h.1 hs fun o ho => hno k hk hkj ⟨by omega, o, ho⟩
  exact ⟨hpc, hslot.trans h.2⟩

/-- The first reuse after a safe deallocation comes after the end of every operation. -/
lemma ends_before_reuse {i j : ℕ} {t u w : T} {x : Obj} (hd : Deallocates r i t x)
    (ha : Allocates r j u x) (hij : i < j) (hfirst : ∀ k u, i < k → k < j → ¬ Allocates r k u x)
    (hsafe : SafeDeallocate (r.state i) t) (hw : (r.state i).pc w = .operating) :
    ∃ k, i < k ∧ k < j ∧ EndsOperation r k w := by
  by_contra hno
  obtain ⟨hj, fresh, hact, hx⟩ := ha
  have hends : ∀ k, i ≤ k → k < j → ¬ EndsOperation r k w := by
    rintro k hk hkj ⟨hl, o, ho⟩
    rcases Nat.eq_or_lt_of_le hk with rfl | hik
    · rw [hd.2] at ho
      cases ho
    · exact hno ⟨k, hik, hkj, hl, o, ho⟩
  obtain ⟨-, hslot⟩ := operating_until r hw hj.le hij.le hends
  have hheld := held_until r hd hj.le hij hfirst
  have hmoved := held_allocate hheld (hact ▸ r.next j hj) hx
  by_cases hwt : w = t
  · subst hwt
    omega
  · obtain ⟨k, hk1, hkn, hk⟩ := exists_hops (c.home w) (c.home t)
    obtain ⟨k, rfl⟩ : ∃ m, k = m + 1 := ⟨k - 1, by omega⟩
    have hlead := hsafe w (k + 1) hwt hw hk1 hkn hk
    have hdrift := slot_le_hops (run_inv r j hj.le) hk
    omega

theorem exclusiveReuse_of_safe
    (hsafe : ∀ i t x, Deallocates r i t x → SafeDeallocate (r.state i) t) : ExclusiveReuse r := by
  classical
  intro i j t u x hd ha hij w hw
  have hex : ∃ k, i < k ∧ ∃ u, Allocates r k u x := ⟨j, hij, u, ha⟩
  obtain ⟨hik, v, hv⟩ := Nat.find_spec hex
  have hle : Nat.find hex ≤ j := Nat.find_min' hex ⟨hij, u, ha⟩
  obtain ⟨k, h1, h2, h3⟩ := ends_before_reuse r hd hv hik
    (fun k u hk hkf hal => Nat.find_min hex hkf ⟨hk, u, hal⟩) (hsafe i t x hd) hw
  exact ⟨k, h1, by omega, h3⟩

instance {T : Type} [Inhabited T] (c : Config T) (Obj : Type) : Inhabited (Act c Obj) :=
  ⟨.next default⟩

/-! ### One node with two threads -/

def solo : Config Bool where
  nodes := 1
  home _ := 0
  members _ := [false, true]
  mem_members := by decide
  ops_per_epoch := 1

def fresh : State solo ℕ where
  my_version _ := 0
  at_version _ := 0
  cycles _ := 0
  sent _ := []
  thread_slots _ := 0
  counter _ := 0
  limbo _ := .empty
  pc _ := .operating

lemma initial_fresh : Initial fresh :=
  ⟨fun _ => ⟨rfl, rfl, rfl, rfl⟩, fun _ => ⟨rfl, rfl, rfl, rfl⟩⟩

/-- The first epoch of the two threads, `true` raising its slot first; `false` then raises its slot
a second time. -/
def epoch (deallocation : List (Act solo ℕ)) : List (Act solo ℕ) :=
  .matchVersion true false :: List.replicate 3 (.next true) ++ deallocation ++
  .matchVersion false false :: List.replicate 9 (.next false) ++
  .matchVersion false false :: List.replicate 4 (.next false) ++ [.allocate false 8]

/-- Thread `false` deallocates while `true` is one slot ahead. -/
def overtakenRun : Run solo ℕ :=
  .ofActs (machine solo ℕ) fresh (epoch [.deallocate false 7]) initial_fresh (by decide)

/-- Thread `false` deallocates before `true` moves. -/
def evenRun : Run solo ℕ :=
  .ofActs (machine solo ℕ) fresh (.deallocate false 7 :: epoch []) initial_fresh (by decide)

def Act.enters {T Obj : Type} [DecidableEq T] {c : Config T} (w : T) : Act c Obj → Bool
  | .matchVersion t _ => t = w
  | _ => false

theorem not_exclusiveReuse_overtaken : ¬ ExclusiveReuse overtakenRun := by
  have hact : ∀ k < 20, 4 < k → (overtakenRun.act k).enters true = false := by decide
  intro h
  obtain ⟨k, h1, h2, -, o, ho⟩ := h 4 20 false false 7 ⟨by decide, rfl⟩ ⟨by decide, 8, rfl, by decide⟩
    (by decide) true rfl
  have hk := hact k h2 h1
  rw [ho] at hk
  cases o <;> exact absurd hk (by decide)

def Act.isDeallocate {T Obj : Type} {c : Config T} : Act c Obj → Bool
  | .deallocate _ _ => true
  | _ => false

theorem exclusiveReuse_even : ExclusiveReuse evenRun ∧ Deallocates evenRun 0 false 7 ∧
    Allocates evenRun 20 false 7 := by
  have hact : ∀ k < 21, 0 < k → (evenRun.act k).isDeallocate = false := by decide
  refine ⟨exclusiveReuse_of_safe evenRun fun i t x hd => ?_, ⟨by decide, rfl⟩,
    by decide, 8, rfl, by decide⟩
  rcases Nat.eq_zero_or_pos i with rfl | hi
  · rintro u k - - - hk -
    exact Nat.add_le_add_left hk 0
  · have hk := hact i hd.1 hi
    rw [hd.2] at hk
    cases hk

end ObjectCache.Ebr
