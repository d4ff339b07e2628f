import ObjectCache.Ebr.Versions
import ObjectCache.Ebr.ExclusiveReuse

/-! Whole calls of `match_version`, made one after another, and when they move the epoch of a single
node on. -/

namespace ObjectCache.Ebr

open Lib

set_option linter.unusedSectionVars false

variable {T Obj : Type} [DecidableEq T] [DecidableEq Obj] {c : Config T}

namespace State

/-- A thread alone, for some steps of `match_version` or until it has left it. -/
def finish (t : T) : ℕ → State c Obj → State c Obj
  | 0, s => s
  | fuel + 1, s =>
    match matchStep s t with
    | some s' => finish t fuel s'
    | none => s

/-- A whole call: it checks at most all slots of its node, and takes seven more steps. -/
def matchVersion (t : T) (override_epoch : Bool) (s : State c Obj) : State c Obj :=
  match step s (.matchVersion t override_epoch) with
  | some s' => s'.finish t ((c.members (c.home t)).length + 7)
  | none => s

/-- Either way for a thread to report the end of an epoch. -/
def report (t : T) (override_epoch : Bool) (s : State c Obj) : State c Obj :=
  if override_epoch then s.matchVersion t true else (matchVersion t false)^[c.ops_per_epoch] s

/-- The reports of some threads, one thread after another. -/
def round (s : State c Obj) (reports : List (T × Bool)) : State c Obj :=
  reports.foldl (fun s r => s.report r.1 r.2) s

/-- The slot and the free lists of a thread that has read its version. -/
def entered (s : State c Obj) (t : T) : State c Obj :=
  if s.thread_slots t < s.my_version (c.home t) + 1 then
    { s with
      thread_slots := Function.update s.thread_slots t (s.my_version (c.home t) + 1) }.setLimbo t
        (s.limbo t).rotate
  else s

/-- A node moves on to a version. -/
def advanced (s : State c Obj) (n : Fin c.nodes) (v : ℕ) : State c Obj :=
  let s := { s with
    at_version := Function.update s.at_version n (toInt v)
    cycles := Function.update s.cycles n (s.cycles n + 1) }
  if c.next n = n then { s with my_version := Function.update s.my_version n v }
  else { s with sent := Function.update s.sent n (s.sent n ++ [v]) }

/-- All slots of a node have reached a version that `at_version` has not. -/
def Closes (s : State c Obj) (n : Fin c.nodes) (v : ℕ) : Prop :=
  (∀ u ∈ c.members n, s.thread_slots u = v) ∧ s.at_version n < v

instance (s : State c Obj) (n : Fin c.nodes) (v : ℕ) : Decidable (s.Closes n v) :=
  inferInstanceAs (Decidable (_ ∧ _))

@[simp]
lemma setPc_setPc (s : State c Obj) (t : T) (pc pc' : Pc T) :
    (s.setPc t pc).setPc t pc' = s.setPc t pc' := by
  simp only [setPc, Function.update_idem]

lemma setPc_self {s : State c Obj} {t : T} {pc : Pc T} (h : s.pc t = pc) : s.setPc t pc = s := by
  rw [setPc, ← h, Function.update_eq_self]

lemma finish_of_step {s : State c Obj} {t : T} (s' : State c Obj) (h : matchStep s t = some s') (fuel : ℕ) :
    s.finish t (fuel + 1) = s'.finish t fuel := by
  rw [finish, h]

lemma finish_operating {s : State c Obj} {t : T} (h : s.pc t = .operating) (fuel : ℕ) :
    s.finish t fuel = s := by
  cases fuel with
  | zero => rfl
  | succ fuel => simp [finish, matchStep, h]

lemma finish_checkSlots (s : State c Obj) (t : T) (v : ℕ) (left : List T) (fuel : ℕ) :
    (s.setPc t (.checkSlots v left)).finish t (left.length + (fuel + 1)) =
      if ∀ u ∈ left, s.thread_slots u = v then (s.setPc t (.loadAt v)).finish t fuel
      else s.setPc t .operating := by
  induction left with
  | nil =>
    rw [List.length_nil, Nat.zero_add,
      finish_of_step (s.setPc t (.loadAt v)) (by simp [matchStep, setPc])]
    simp
  | cons u us ih =>
    rw [List.length_cons, Nat.add_right_comm]
    by_cases hu : s.thread_slots u = v
    · rw [finish_of_step (s.setPc t (.checkSlots v us)) (by simp [matchStep, setPc, hu]), ih]
      simp [hu]
    · rw [finish_of_step (s.setPc t .operating) (by simp [matchStep, setPc, hu]),
        finish_operating (by simp [setPc]), if_neg]
      exact fun h => hu (h u (by simp))

lemma finish_loadAt (s : State c Obj) (t : T) (v : ℕ) :
    (s.setPc t (.loadAt v)).finish t 4 =
      (if s.at_version (c.home t) < v then s.advanced (c.home t) v else s).setPc t .operating := by
  by_cases hv : s.at_version (c.home t) < v
  · have hne : s.at_version (c.home t) ≠ v := Int.ne_of_lt hv
    rw [if_pos hv, finish_of_step (s.setPc t (.exchangeAt v)) (by simp [matchStep, setPc, hv]),
      finish_of_step (setPc { s with
        at_version := Function.update s.at_version (c.home t) (toInt v) } t (.incCycles v))
        (by simp [matchStep, setPc, hne]),
      finish_of_step (setPc { s with
        at_version := Function.update s.at_version (c.home t) (toInt v)
        cycles := Function.update s.cycles (c.home t) (s.cycles (c.home t) + 1) } t (.writeNext v))
        (by simp [matchStep, setPc]),
      finish_of_step ((s.advanced (c.home t) v).setPc t .operating) ?_]
    · rfl
    · by_cases hn : c.next (c.home t) = c.home t <;> simp [matchStep, setPc, advanced, hn]
  · rw [if_neg hv, finish_of_step (s.setPc t .operating) (by simp [matchStep, setPc, hv]),
      finish_operating (by simp [setPc])]

/-- What a call that does not wait does. -/
def closed (s : State c Obj) (t : T) : State c Obj :=
  let n := c.home t
  let v := s.my_version n + 1
  if (s.entered t).Closes n v then (s.entered t).advanced n v else s.entered t

def withCounter (s : State c Obj) (counter : T → ℕ) : State c Obj := { s with counter := counter }

@[simp]
lemma withCounter_withCounter (s : State c Obj) (counter counter' : T → ℕ) :
    (s.withCounter counter).withCounter counter' = s.withCounter counter' := rfl

@[simp]
lemma counter_withCounter (s : State c Obj) (counter : T → ℕ) :
    (s.withCounter counter).counter = counter := rfl

@[simp]
lemma pc_withCounter (s : State c Obj) (counter : T → ℕ) : (s.withCounter counter).pc = s.pc := rfl

lemma finish_readVersion (s : State c Obj) (t : T) :
    (s.setPc t .readVersion).finish t ((c.members (c.home t)).length + 7) =
      (s.closed t).setPc t .operating := by
  set n := c.home t with hn
  set v := s.my_version n + 1 with hv
  have hread : matchStep (s.setPc t .readVersion) t = some (s.setPc t (.storeSlot v)) := by
    simp [matchStep, setPc, hn, hv]
  have hstore : matchStep (s.setPc t (.storeSlot v)) t =
      some ((s.entered t).setPc t (.checkSlots v (c.members n))) := by
    by_cases hlt : s.thread_slots t < v <;>
      simp [matchStep, setPc, setLimbo, entered, hlt, ← hn, ← hv]
  have hfuel : (c.members n).length + 7 = (c.members n).length + (4 + 1) + 1 + 1 := by omega
  rw [hfuel, finish_of_step _ hread, finish_of_step _ hstore, finish_checkSlots, finish_loadAt, closed]
  by_cases hall : ∀ u ∈ c.members n, (s.entered t).thread_slots u = v
  · rw [if_pos hall]
    by_cases hat : (s.entered t).at_version n < v
    · rw [if_pos hat, if_pos ⟨hall, hat⟩]
    · rw [if_neg hat, if_neg fun h => hat h.2]
  · rw [if_neg hall, if_neg fun h => hall h.1]

lemma entered_pc (s : State c Obj) (t : T) : (s.entered t).pc = s.pc := by
  rw [entered]
  split_ifs <;> rfl

lemma closed_pc (s : State c Obj) (t : T) : (s.closed t).pc = s.pc := by
  rw [closed]
  split_ifs
  · rw [advanced]
    split_ifs <;> exact entered_pc s t
  · exact entered_pc s t

lemma closed_withCounter (s : State c Obj) (t : T) (counter : T → ℕ) :
    (s.withCounter counter).closed t = (s.closed t).withCounter counter := by
  have hentered : (s.withCounter counter).entered t = (s.entered t).withCounter counter := by
    by_cases hlt : s.thread_slots t < s.my_version (c.home t) + 1 <;>
      simp [entered, withCounter, setLimbo, hlt]
  have hadvanced : ∀ s : State c Obj, ∀ n v, (s.withCounter counter).advanced n v =
      (s.advanced n v).withCounter counter := by
    intro s n v
    by_cases hn : c.next n = n <;> simp [advanced, withCounter, hn]
  have hcloses : ∀ v, ((s.entered t).withCounter counter).Closes (c.home t) v ↔
      (s.entered t).Closes (c.home t) v := fun v => Iff.rfl
  have hversion : (s.withCounter counter).my_version = s.my_version := rfl
  simp only [closed, hentered, hadvanced, hversion, hcloses]
  split_ifs <;> rfl

lemma matchVersion_true {s : State c Obj} {t : T} (h : s.pc t = .operating) :
    s.matchVersion t true = s.withCounter (Function.update s.counter t (s.counter t + 1)) := by
  have hstep : step s (.matchVersion t true) =
      some (s.withCounter (Function.update s.counter t (s.counter t + 1))) := by
    simp [step, h, withCounter]
  simp only [matchVersion, hstep]
  exact finish_operating (by simpa using h) _

lemma matchVersion_false {s : State c Obj} {t : T} (h : s.pc t = .operating) :
    s.matchVersion t false =
      (if c.ops_per_epoch ∣ s.counter t + 1 then s.closed t else s).withCounter
        (Function.update s.counter t (s.counter t + 1)) := by
  set counter := Function.update s.counter t (s.counter t + 1) with hcounter
  by_cases hdvd : c.ops_per_epoch ∣ s.counter t + 1
  · have hstep : step s (.matchVersion t false) = some ((s.withCounter counter).setPc t .readVersion) := by
      simp [step, h, withCounter, Nat.mod_eq_zero_of_dvd hdvd, hcounter]
    simp only [matchVersion, hstep, if_pos hdvd]
    rw [finish_readVersion, closed_withCounter]
    exact setPc_self (by rw [pc_withCounter, closed_pc, h])
  · have hmod : (s.counter t + 1) % c.ops_per_epoch ≠ 0 := fun hmod =>
      hdvd (Nat.dvd_of_mod_eq_zero hmod)
    have hstep : step s (.matchVersion t false) = some (s.withCounter counter) := by
      simp [step, h, withCounter, hmod, hcounter]
    simp only [matchVersion, hstep, if_neg hdvd]
    exact finish_operating (by simpa using h) _

/-- In as many calls as make an epoch, one does not wait. -/
lemma iterate_matchVersion {s : State c Obj} {t : T} (h : s.pc t = .operating) {k : ℕ}
    (hk : k ≤ c.ops_per_epoch) (hpos : 0 < c.ops_per_epoch) :
    (matchVersion t false)^[k] s =
      (if (s.counter t + k) / c.ops_per_epoch = s.counter t / c.ops_per_epoch then s
        else s.closed t).withCounter (Function.update s.counter t (s.counter t + k)) := by
  induction k with
  | zero => simp [withCounter]
  | succ k ih =>
    rw [Function.iterate_succ_apply', ih (by omega), ← Nat.add_assoc]
    set a := s.counter t with ha
    set ops := c.ops_per_epoch with hops
    have hdiv : (a + k + 1) / ops = (a + k) / ops + if ops ∣ a + k + 1 then 1 else 0 :=
      Nat.succ_div ..
    have hle : (a + k + 1) / ops ≤ a / ops + 1 := by
      rw [← Nat.add_div_right a hpos]
      exact Nat.div_le_div_right (by omega)
    have hge : a / ops ≤ (a + k) / ops := Nat.div_le_div_right (by omega)
    by_cases hdvd : ops ∣ a + k + 1
    · rw [if_pos hdvd] at hdiv
      have hsame : (a + k) / ops = a / ops := by omega
      have hnew : ¬ (a + k + 1) / ops = a / ops := by omega
      rw [if_pos hsame, if_neg hnew, matchVersion_false (by simpa using h)]
      simp only [counter_withCounter, Function.update_self, ← hops, hdvd, if_true,
        Function.update_idem, closed_withCounter, withCounter_withCounter]
    · rw [if_neg hdvd] at hdiv
      have hsame : (a + k + 1) / ops = (a + k) / ops := by omega
      rw [hsame, matchVersion_false ?_]
      · simp only [counter_withCounter, Function.update_self, ← hops, hdvd, if_false,
          Function.update_idem, withCounter_withCounter]
      · rw [pc_withCounter]
        split_ifs
        · exact h
        · rw [closed_pc, h]

lemma report_false {s : State c Obj} {t : T} (h : s.pc t = .operating) (hpos : 0 < c.ops_per_epoch) :
    s.report t false =
      (s.closed t).withCounter (Function.update s.counter t (s.counter t + c.ops_per_epoch)) := by
  have hnew : ¬ (s.counter t + c.ops_per_epoch) / c.ops_per_epoch = s.counter t / c.ops_per_epoch := by
    rw [Nat.add_div_right _ hpos]
    omega
  simp only [report, Bool.false_eq_true, if_false]
  rw [iterate_matchVersion h le_rfl hpos, if_neg hnew]

end State

end ObjectCache.Ebr
