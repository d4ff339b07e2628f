import ObjectCache.Ebr.Versions
import ObjectCache.Ebr.ExclusiveReuse

/-! `EBRObjectPoolAccompany`: free lists whose roles follow the `cycles` of a pool that is linked to
itself. -/

namespace ObjectCache.Ebr.Accompany

open Lib

set_option linter.unusedSectionVars false

variable {T K Obj : Type} [DecidableEq T] [DecidableEq K] [DecidableEq Obj] {c : Config T}

/-- The pool and the three free lists of each thread. -/
structure State (c : Config T) (K Obj : Type) where
  pool : Ebr.State c K
  free_lists : T → ℕ → List Obj

inductive Act (c : Config T) (K Obj : Type) where
  | pool (a : Ebr.Act c K)
  | deallocate (t : T) (obj : Obj)
  | requeue (t : T) (obj : Obj)
  | allocate (t : T) (fresh : Obj)

namespace State

def cycles (s : State c K Obj) (t : T) : ℕ := s.pool.cycles (c.home t)

def last_index (s : State c K Obj) (t : T) : ℕ := (s.cycles t + 2) % 3

def first_index (s : State c K Obj) (t : T) : ℕ := s.cycles t % 3

def setList (s : State c K Obj) (t : T) (i : ℕ) (l : List Obj) : State c K Obj :=
  { s with free_lists := Function.update s.free_lists t (Function.update (s.free_lists t) i l) }

/-- No thread has the object on a free list. -/
def unlisted (s : State c K Obj) (obj : Obj) : Bool :=
  (List.finRange c.nodes).all fun n => (c.members n).all fun t =>
    (List.range 3).all fun i => obj ∉ s.free_lists t i

/-- What `allocate` returns. -/
def allocated (s : State c K Obj) (t : T) (fresh : Obj) : Obj :=
  (s.free_lists t (s.first_index t)).headD fresh

end State

/-- A thread uses its lists between two calls of `match_version`. No step overflows the `int` that
counts the cycles. -/
def step (s : State c K Obj) : Act c K Obj → Option (State c K Obj)
  | .pool a =>
    match Ebr.step s.pool a with
    | some pool =>
      if (List.finRange c.nodes).all fun n => pool.cycles n < 2 ^ 31 then some { s with pool := pool }
      else none
    | none => none
  | .deallocate t obj =>
    match s.pool.pc t, s.unlisted obj with
    | .operating, true =>
      some (s.setList t (s.last_index t) (s.free_lists t (s.last_index t) ++ [obj]))
    | _, _ => none
  | .requeue t obj =>
    match s.pool.pc t, s.unlisted obj with
    | .operating, true => some (s.setList t 0 (s.free_lists t 0 ++ [obj]))
    | _, _ => none
  | .allocate t fresh =>
    match s.pool.pc t, s.free_lists t (s.first_index t), s.unlisted fresh with
    | .operating, [], true => some s
    | .operating, _ :: rest, _ => some (s.setList t (s.first_index t) rest)
    | _, _, _ => none

def machine (c : Config T) (K Obj : Type) [DecidableEq K] [DecidableEq Obj] :
    Machine (State c K Obj) (Act c K Obj) where
  init s := Initial s.pool ∧ ∀ t i, s.free_lists t i = []
  step := step

/-! ### The cycles of a self-linked node -/

/-- `cycles` follows the version, and no slot is behind it. -/
structure Counted (s : Ebr.State c K) : Prop where
  inv : Inv s
  own : Own s
  small : ∀ n, s.cycles n < 2 ^ 31
  quiet : ∀ n, s.sent n = []
  counted : ∀ n, s.my_version n ≤ s.cycles n
  cycle_le : ∀ t, s.cycles (c.home t) ≤ s.thread_slots t
  inc : ∀ t v, s.pc t = .incCycles v →
    s.cycles (c.home t) < v ∧ (v < 2 ^ 31 → s.at_version (c.home t) = v)
  alone : ∀ t u v w, c.home t = c.home u → s.pc t = .incCycles v → s.pc u = .incCycles w →
    v < 2 ^ 31 → t = u
  write : ∀ t v, s.pc t = .writeNext v → v ≤ s.cycles (c.home t)
  at_le : ∀ t, s.at_version (c.home t) ≤ s.thread_slots t
  -- once a version does not fit into `at_version`, all slots have reached it
  ahead : ∀ n, (s.cycles n : ℤ) ≤ s.at_version n ∨ ∀ t, c.home t = n → 2 ^ 31 ≤ s.thread_slots t

lemma counted_initial {s : Ebr.State c K} (h : Initial s) : Counted s := by
  have hpc : ∀ t, s.pc t = .operating := fun t => (h.2 t).2.2.2
  refine ⟨inv_initial h, own_initial h, ?_, fun n => (h.1 n).2.2.2, ?_, ?_, ?_, ?_, ?_, ?_, ?_⟩
  · intro n
    rw [(h.1 n).2.2.1]
    norm_num
  · intro n
    rw [(h.1 n).1, (h.1 n).2.2.1]
  · intro t
    rw [(h.1 _).2.2.1]
    exact Nat.zero_le _
  · intro t v hv
    rw [hpc] at hv
    cases hv
  · intro t u v w _ hv
    rw [hpc] at hv
    cases hv
  · intro t v hv
    rw [hpc] at hv
    cases hv
  · intro t
    rw [(h.1 _).2.1, (h.2 t).1]
    rfl
  · intro n
    left
    rw [(h.1 n).2.1, (h.1 n).2.2.1]
    rfl

/-- Two threads that have checked all slots of their node hold the same version. -/
lemma Counted.scanned_eq {s : Ebr.State c K} (h : Counted s) {t u : T} {v w : ℕ}
    (htu : c.home t = c.home u) (hv : (s.pc t).scanned = some v) (hw : (s.pc u).scanned = some w) :
    v = w := by
  have hvu := (h.inv.pc t).scanned hv u htu.symm
  have hwt := (h.inv.pc u).scanned hw t htu
  rw [h.own.scanned u w hw] at hvu
  rw [h.own.scanned t v hv] at hwt
  exact le_antisymm hvu hwt

/-- A thread goes to a point before the exchange or leaves, and slots grow. -/
lemma Counted.quietly {s s' : Ebr.State c K} (h : Counted s) {t : T} {pc : Pc T} (hi : Inv s')
    (ho : Own s') (hpc : s'.pc = Function.update s.pc t pc) (hno : pc.won = none)
    (hmy : s'.my_version = s.my_version) (hcy : s'.cycles = s.cycles) (hsent : s'.sent = s.sent)
    (hat : s'.at_version = s.at_version) (hslots : ∀ u, s.thread_slots u ≤ s'.thread_slots u) :
    Counted s' := by
  have hback : ∀ u v, (s'.pc u).won = some v → s'.pc u = s.pc u := by
    intro u v hv
    rw [hpc] at hv ⊢
    by_cases hu : u = t
    · subst hu
      rw [Function.update_self, hno] at hv
      cases hv
    · exact Function.update_of_ne hu ..
  have hinc : ∀ u v, s'.pc u = .incCycles v → s.pc u = .incCycles v := by
    intro u v hv
    rw [← hback u v (by rw [hv]; rfl), hv]
  refine ⟨hi, ho, ?_, ?_, ?_, ?_, ?_, ?_, ?_, ?_, ?_⟩
  · rw [hcy]
    exact h.small
  · rw [hsent]
    exact h.quiet
  · rw [hmy, hcy]
    exact h.counted
  · intro u
    rw [hcy]
    exact (h.cycle_le u).trans (hslots u)
  · intro u v hv
    rw [hcy, hat]
    exact h.inc u v (hinc u v hv)
  · intro u u' v w hu hv hw
    exact h.alone u u' v w hu (hinc u v hv) (hinc u' w hw)
  · intro u v hv
    rw [hcy]
    refine h.write u v ?_
    rw [← hback u v (by rw [hv]; rfl), hv]
  · intro u
    have hle := h.at_le u
    have := hslots u
    rw [hat]
    omega
  · intro n
    rw [hcy, hat]
    exact (h.ahead n).imp_right fun hall u hu => (hall u hu).trans (hslots u)

lemma Counted.leave {s : Ebr.State c K} (h : Counted s) (t : T) : Counted (s.setPc t .operating) := by
  have hi : Inv (s.setPc t .operating) := h.inv.setPc trivial
  exact h.quietly hi (h.own.leave t) (s.setPc_pc t _) rfl rfl rfl rfl rfl fun _ => le_rfl

/-- The exchange that finds another version: nobody else is about to count one that fits. -/
lemma Counted.pass {s : Ebr.State c K} (h : Counted s) {t : T} {v : ℕ}
    (hpc : s.pc t = .exchangeAt v) (hat : s.at_version (c.home t) ≠ v)
    (hi : Inv ({ s with at_version := Function.update s.at_version (c.home t) (toInt v) }.setPc t
      (.incCycles v)))
    (ho : Own ({ s with at_version := Function.update s.at_version (c.home t) (toInt v) }.setPc t
      (.incCycles v))) :
    Counted ({ s with at_version := Function.update s.at_version (c.home t) (toInt v) }.setPc t
      (.incCycles v)) := by
  have hscanned : (s.pc t).scanned = some v := by rw [hpc]; rfl
  have hslot := h.own.scanned t v hscanned
  have hall := (h.inv.pc t).scanned hscanned
  have hlarge : ∀ u w, c.home t = c.home u → s.pc u = .incCycles w → 2 ^ 31 ≤ v := by
    intro u w hu hw
    have hvw : v = w := h.scanned_eq hu hscanned (by rw [hw]; rfl)
    subst hvw
    by_contra hv
    have := (h.inc u v hw).2 (by omega)
    rw [← hu] at this
    exact hat this
  have hcycles : s.cycles (c.home t) < v := by
    have hsmall := h.small (c.home t)
    rcases h.ahead (c.home t) with hle | hle
    · have := h.at_le t
      omega
    · have := hle t rfl
      omega
  have hold : ∀ u w, u ≠ t →
      (State.setPc { s with at_version := Function.update s.at_version (c.home t) (toInt v) } t
        (.incCycles v)).pc u = .incCycles w → s.pc u = .incCycles w := by
    intro u w hu hw
    rwa [State.setPc_pc, Function.update_of_ne hu] at hw
  refine ⟨hi, ho, h.small, h.quiet, h.counted, h.cycle_le, ?_, ?_, ?_, ?_, ?_⟩
  · intro u w hw
    by_cases hu : u = t
    · subst hu
      rw [State.setPc_pc, Function.update_self] at hw
      cases hw
      refine ⟨hcycles, fun hv => ?_⟩
      simpa [State.setPc] using toInt_of_lt hv
    · have hw := hold u w hu hw
      refine ⟨(h.inc u w hw).1, fun hlt => ?_⟩
      by_cases hn : c.home t = c.home u
      · have := hlarge u w hn hw
        have hvw : v = w := h.scanned_eq hn hscanned (by rw [hw]; rfl)
        omega
      · simpa [State.setPc, Ne.symm hn] using (h.inc u w hw).2 hlt
  · intro u u' w w' hsame hw hw' hlt
    by_cases hu : u = t <;> by_cases hu' : u' = t
    · rw [hu, hu']
    · subst hu
      rw [State.setPc_pc, Function.update_self] at hw
      cases hw
      have := hlarge u' w' hsame (hold u' w' hu' hw')
      omega
    · subst hu'
      have hw := hold u w hu hw
      have := hlarge u w hsame.symm hw
      have hvw : v = w := h.scanned_eq hsame.symm hscanned (by rw [hw]; rfl)
      omega
    · exact h.alone u u' w w' hsame (hold u w hu hw) (hold u' w' hu' hw') hlt
  · intro u w hw
    by_cases hu : u = t
    · subst hu
      rw [State.setPc_pc, Function.update_self] at hw
      cases hw
    · rw [State.setPc_pc, Function.update_of_ne hu] at hw
      exact h.write u w hw
  · intro u
    by_cases hu : c.home u = c.home t
    · have hle := toInt_le v
      have := hall u hu
      simp only [State.setPc, hu, Function.update_self]
      omega
    · simpa [State.setPc, hu] using h.at_le u
  · intro n
    by_cases hn : n = c.home t
    · subst hn
      rcases Nat.lt_or_ge v (2 ^ 31) with hv | hv
      · left
        simp only [State.setPc, Function.update_self]
        rw [toInt_of_lt hv]
        exact_mod_cast hcycles.le
      · right
        intro u hu
        exact hv.trans (hall u hu)
    · simpa [State.setPc, hn] using h.ahead n

lemma Counted.lose {s : Ebr.State c K} (h : Counted s) {t : T} {v : ℕ}
    (hpc : s.pc t = .exchangeAt v) (hat : s.at_version (c.home t) = v) :
    Counted ({ s with at_version := Function.update s.at_version (c.home t) (toInt v) }.setPc t
      .operating) := by
  have hall := (h.inv.pc t).scanned (v := v) (by rw [hpc]; rfl)
  rcases Nat.lt_or_ge v (2 ^ 31) with hv | hv
  · have hsame : Function.update s.at_version (c.home t) (toInt v) = s.at_version := by
      rw [toInt_of_lt hv, ← hat, Function.update_eq_self]
    rw [hsame]
    exact h.leave t
  have hleft := h.leave t
  have hinv : Inv ({ s with
      at_version := Function.update s.at_version (c.home t) (toInt v) }.setPc t .operating) :=
    hleft.inv.congr rfl rfl rfl rfl
  refine ⟨hinv, hleft.own.grow rfl rfl fun _ => le_rfl, h.small, h.quiet, h.counted, h.cycle_le, ?_,
    hleft.alone, hleft.write, ?_, ?_⟩
  · intro u w hw
    obtain ⟨hlt, hold⟩ := hleft.inc u w hw
    refine ⟨hlt, fun hsmall => ?_⟩
    by_cases hu : c.home u = c.home t
    · have hge := hall u hu
      have hslot := hleft.own.scanned u w (by rw [show (s.setPc t .operating).pc u = _ from hw]; rfl)
      have : s.thread_slots u = w := hslot
      omega
    · simpa [State.setPc, hu] using hold hsmall
  · intro u
    by_cases hu : c.home u = c.home t
    · have hle := toInt_le v
      have := hall u hu
      simp only [State.setPc, hu, Function.update_self]
      omega
    · simpa [State.setPc, hu] using h.at_le u
  · intro n
    by_cases hn : n = c.home t
    · right
      subst hn
      exact fun u hu => hv.trans (hall u hu)
    · simpa [State.setPc, hn] using h.ahead n

/-- The increment of `cycles` catches up with the version its thread has won. -/
lemma Counted.count {s : Ebr.State c K} (h : Counted s) {t : T} {v : ℕ}
    (hpc : s.pc t = .incCycles v) (hsmall : s.cycles (c.home t) + 1 < 2 ^ 31)
    (hi : Inv ({ s with
      cycles := Function.update s.cycles (c.home t) (s.cycles (c.home t) + 1) }.setPc t (.writeNext v)))
    (ho : Own ({ s with
      cycles := Function.update s.cycles (c.home t) (s.cycles (c.home t) + 1) }.setPc t
        (.writeNext v))) :
    Counted ({ s with
      cycles := Function.update s.cycles (c.home t) (s.cycles (c.home t) + 1) }.setPc t
        (.writeNext v)) := by
  obtain ⟨hlt, hat⟩ := h.inc t v hpc
  have hv : v = s.cycles (c.home t) + 1 := by
    have htaken := h.own.taken t v (by rw [hpc]; rfl)
    have hcounted := h.counted (c.home t)
    omega
  have hat := hat (by omega)
  have hall := (h.inv.pc t).scanned (v := v) (by rw [hpc]; rfl)
  have hgrow : ∀ n, s.cycles n ≤
      Function.update s.cycles (c.home t) (s.cycles (c.home t) + 1) n := by
    intro n
    by_cases hn : n = c.home t
    · subst hn
      simp
    · simp [hn]
  have hinc : ∀ u w, (State.setPc { s with
      cycles := Function.update s.cycles (c.home t) (s.cycles (c.home t) + 1) } t
        (.writeNext v)).pc u = .incCycles w → s.pc u = .incCycles w ∧ c.home u ≠ c.home t := by
    intro u w hw
    have hu : u ≠ t := by
      rintro rfl
      rw [State.setPc_pc, Function.update_self] at hw
      cases hw
    rw [State.setPc_pc, Function.update_of_ne hu] at hw
    refine ⟨hw, fun hn => hu ?_⟩
    exact (h.alone t u v w hn.symm hpc hw (by omega)).symm
  refine ⟨hi, ho, ?_, h.quiet, fun n => (h.counted n).trans (hgrow n), ?_, ?_, ?_, ?_, h.at_le, ?_⟩
  · intro n
    by_cases hn : n = c.home t
    · subst hn
      simpa [State.setPc] using hsmall
    · simpa [State.setPc, hn] using h.small n
  · intro u
    by_cases hu : c.home u = c.home t
    · simpa [State.setPc, hu, ← hv] using hall u hu
    · simpa [State.setPc, hu] using h.cycle_le u
  · intro u w hw
    obtain ⟨hw, hu⟩ := hinc u w hw
    simpa [State.setPc, hu] using h.inc u w hw
  · intro u u' w w' hsame hw hw'
    exact h.alone u u' w w' hsame (hinc u w hw).1 (hinc u' w' hw').1
  · intro u w hw
    by_cases hu : u = t
    · subst hu
      rw [State.setPc_pc, Function.update_self] at hw
      cases hw
      simp [State.setPc, hv]
    · rw [State.setPc_pc, Function.update_of_ne hu] at hw
      exact (h.write u w hw).trans (hgrow _)
  · intro n
    by_cases hn : n = c.home t
    · left
      subst hn
      simp only [State.setPc, Function.update_self]
      omega
    · simpa [State.setPc, hn] using h.ahead n

lemma Counted.written {s : Ebr.State c K} (h : Counted s) {t : T} {v : ℕ}
    (hpc : s.pc t = .writeNext v)
    (hi : Inv ({ s with my_version := Function.update s.my_version (c.home t) v }.setPc t .operating))
    (ho : Own ({ s with
      my_version := Function.update s.my_version (c.home t) v }.setPc t .operating)) :
    Counted ({ s with
      my_version := Function.update s.my_version (c.home t) v }.setPc t .operating) := by
  have hleft := h.leave t
  refine ⟨hi, ho, h.small, h.quiet, ?_, h.cycle_le, hleft.inc, hleft.alone, hleft.write, h.at_le,
    h.ahead⟩
  intro n
  by_cases hn : n = c.home t
  · subst hn
    simpa [State.setPc] using h.write t v hpc
  · simpa [State.setPc, hn] using h.counted n

lemma next_eq_self (hc : c.nodes = 1) (n : Fin c.nodes) : c.next n = n := by
  apply Fin.ext
  have hn := n.isLt
  have hm := (c.next n).isLt
  omega

/-- What the pool writes to its own version is no older. -/
lemma Counted.version_le {s s' : Ebr.State c K} (h : Counted s) (hc : c.nodes = 1)
    {a : Ebr.Act c K} (hs : Ebr.step s a = some s') (n : Fin c.nodes) :
    s.my_version n ≤ s'.my_version n := by
  cases steps_of_step hs with
  | lists | enter => exact le_rfl
  | deliver m i v hv =>
    rw [h.quiet m] at hv
    simp at hv
  | moves t _ hm =>
    cases hm with
    | write v hpc _ =>
      by_cases hn : n = c.home t
      · subst hn
        have hle := h.inv.version t
        rw [next_eq_self hc, h.own.scanned t v (by rw [hpc]; rfl)] at hle
        simpa [State.setPc] using hle
      · simp [State.setPc, hn]
    | _ => exact le_rfl

theorem counted_step {s s' : Ebr.State c K} {a : Ebr.Act c K} (h : Counted s) (hc : c.nodes = 1)
    (hs : Ebr.step s a = some s') (hsmall : ∀ n, s'.cycles n < 2 ^ 31) : Counted s' := by
  have hi := inv_step h.inv hs
  have ho := own_step h.own (h.version_le hc hs) hs
  cases steps_of_step hs with
  | lists =>
    exact ⟨hi, ho, h.small, h.quiet, h.counted, h.cycle_le, h.inc, h.alone, h.write, h.at_le, h.ahead⟩
  | enter t o counter hpc =>
    exact h.quietly (t := t) hi ho (show _ = Function.update s.pc t .readVersion from rfl) rfl rfl rfl rfl rfl fun _ => le_rfl
  | deliver m i v hv =>
    rw [h.quiet m] at hv
    simp at hv
  | moves t _ hm =>
    cases hm with
    | store v hpc hv =>
      refine h.quietly (t := t) hi ho rfl rfl rfl rfl rfl rfl fun u => ?_
      by_cases hu : u = t
      · subst hu
        simpa [State.setPc, State.setLimbo] using hv.le
      · simp [State.setPc, State.setLimbo, hu]
    | pass v hpc hv => exact h.pass hpc hv hi ho
    | lose v hpc hv => exact h.lose hpc hv
    | count v hpc =>
      have := hsmall (c.home t)
      simp only [State.setPc, Function.update_self] at this
      exact h.count hpc this hi ho
    | write v hpc => exact h.written hpc hi ho
    | send v hpc hn => exact absurd (next_eq_self hc _) hn
    | read | keep | lag | check | scanned | load | late =>
      exact h.quietly (t := t) hi ho rfl rfl rfl rfl rfl rfl fun _ => le_rfl

/-! ### Where a deallocated block lies -/

/-- A block that was deallocated when `cycles` was `cycle` is on one list only, and `allocate` comes
to this list two cycles later. -/
structure Held (cycle : ℕ) (t : T) (x : Obj) (s : State c K Obj) : Prop where
  mem : x ∈ s.free_lists t ((cycle + 2) % 3)
  alone : ∀ u i, i < 3 → x ∈ s.free_lists u i → u = t ∧ i = (cycle + 2) % 3
  since : cycle ≤ s.cycles t

lemma unlisted_iff {s : State c K Obj} {x : Obj} :
    s.unlisted x = true ↔ ∀ t i, i < 3 → x ∉ s.free_lists t i := by
  simp only [State.unlisted, List.all_eq_true, decide_eq_true_eq, List.mem_range]
  constructor
  · exact fun h t => h (c.home t) (List.mem_finRange _) t ((c.mem_members _ t).mpr rfl)
  · exact fun h n _ t _ => h t

lemma Held.not_unlisted {cycle : ℕ} {t : T} {x y : Obj} {s : State c K Obj} (h : Held cycle t x s)
    (hy : s.unlisted y = true) : x ≠ y := by
  rintro rfl
  exact unlisted_iff.mp hy t _ (Nat.mod_lt _ (by omega)) h.mem

lemma setList_cases (s : State c K Obj) (t : T) (i : ℕ) (l : List Obj) (u : T) (j : ℕ) :
    ((s.setList t i l).free_lists u j = l ∧ u = t ∧ j = i) ∨
      (s.setList t i l).free_lists u j = s.free_lists u j := by
  simp only [State.setList]
  by_cases hu : u = t
  · subst hu
    by_cases hj : j = i
    · subst hj
      simp
    · simp [hj]
  · simp [hu]

lemma Held.setList {cycle : ℕ} {t u : T} {x : Obj} {s : State c K Obj} {i : ℕ} {l : List Obj}
    (h : Held cycle t x s) (hl : x ∈ l ↔ x ∈ s.free_lists u i) : Held cycle t x (s.setList u i l) := by
  refine ⟨?_, fun w j hj hm => ?_, h.since⟩
  · rcases setList_cases s u i l t ((cycle + 2) % 3) with ⟨he, rfl, rfl⟩ | he <;> rw [he]
    · exact hl.mpr h.mem
    · exact h.mem
  · rcases setList_cases s u i l w j with ⟨he, rfl, rfl⟩ | he <;> rw [he] at hm
    · exact h.alone w j hj (hl.mp hm)
    · exact h.alone w j hj hm

/-- The counter of a node only grows. -/
lemma cycles_le {s s' : Ebr.State c K} {a : Ebr.Act c K} (hs : Ebr.step s a = some s')
    (n : Fin c.nodes) : s.cycles n ≤ s'.cycles n := by
  cases steps_of_step hs with
  | lists | enter | deliver => exact le_rfl
  | moves t _ hm =>
    cases hm with
    | count v hpc =>
      by_cases hn : n = c.home t
      · subst hn
        simp [State.setPc]
      · simp [State.setPc, hn]
    | _ => exact le_rfl

lemma pool_step {s s' : State c K Obj} {a : Ebr.Act c K} (hs : step s (.pool a) = some s') :
    Ebr.step s.pool a = some s'.pool ∧ s'.free_lists = s.free_lists ∧
      ∀ n, s'.pool.cycles n < 2 ^ 31 := by
  simp only [step] at hs
  split at hs
  · rename_i pool hpool
    split_ifs at hs with hsmall
    cases hs
    refine ⟨hpool, rfl, fun n => ?_⟩
    simpa using List.all_eq_true.mp hsmall n (List.mem_finRange n)
  · cases hs

theorem held_step {cycle : ℕ} {t : T} {x : Obj} {s s' : State c K Obj} {a : Act c K Obj}
    (h : Held cycle t x s) (hs : step s a = some s')
    (ha : ∀ u fresh, a = .allocate u fresh → s.allocated u fresh ≠ x) : Held cycle t x s' := by
  cases a with
  | pool a =>
    obtain ⟨hpool, hlists, -⟩ := pool_step hs
    refine ⟨by rw [hlists]; exact h.mem, by rw [hlists]; exact h.alone, ?_⟩
    exact h.since.trans (cycles_le hpool _)
  | deallocate u y =>
    simp only [step] at hs
    split at hs
    · rename_i hy
      cases hs
      have hxy := h.not_unlisted hy
      exact h.setList (by simp [hxy])
    · cases hs
  | requeue u y =>
    simp only [step] at hs
    split at hs
    · rename_i hy
      cases hs
      have hxy := h.not_unlisted hy
      exact h.setList (by simp [hxy])
    · cases hs
  | allocate u fresh =>
    simp only [step] at hs
    split at hs
    · cases hs
      exact h
    · rename_i y rest _ hfirst
      cases hs
      have hxy : y ≠ x := by simpa [State.allocated, hfirst] using ha u fresh rfl
      exact h.setList (by simp [hfirst, hxy.symm])
    · cases hs

lemma held_deallocate {t : T} {x : Obj} {s s' : State c K Obj}
    (hs : step s (.deallocate t x) = some s') : Held (s.cycles t) t x s' ∧ s'.pool = s.pool := by
  simp only [step] at hs
  split at hs
  · rename_i hx
    cases hs
    have hx := unlisted_iff.mp hx
    refine ⟨⟨?_, fun u i hi hm => ?_, le_rfl⟩, rfl⟩
    · simp [State.setList, State.last_index]
    · rcases setList_cases s t (s.last_index t) (s.free_lists t (s.last_index t) ++ [x]) u i with
        ⟨-, rfl, rfl⟩ | he
      · exact ⟨rfl, rfl⟩
      · rw [he] at hm
        exact absurd hm (hx u i hi)
  · cases hs

/-- It is handed out by its own thread, two cycles later. -/
lemma held_allocate {cycle : ℕ} {t u : T} {x fresh : Obj} {s s' : State c K Obj}
    (h : Held cycle t x s) (hs : step s (.allocate u fresh) = some s')
    (hx : s.allocated u fresh = x) : cycle + 2 ≤ s.cycles t := by
  simp only [step] at hs
  split at hs
  · rename_i hfirst hfresh
    have : fresh = x := by simpa [State.allocated, hfirst] using hx
    exact absurd this.symm (h.not_unlisted hfresh)
  · rename_i y rest _ hfirst
    have hy : y = x := by simpa [State.allocated, hfirst] using hx
    have hm : x ∈ s.free_lists u (s.first_index u) := by simp [hfirst, hy]
    obtain ⟨rfl, hi⟩ := h.alone u _ (Nat.mod_lt _ (by omega)) hm
    have hsince := h.since
    have hrole : s.cycles u % 3 = (cycle + 2) % 3 := hi
    omega
  · cases hs

/-! ### Runs -/

abbrev Run (c : Config T) (K Obj : Type) [DecidableEq K] [DecidableEq Obj] := (machine c K Obj).Run

def Deallocates (r : Run c K Obj) (i : ℕ) (t : T) (x : Obj) : Prop :=
  i < r.len ∧ r.act i = .deallocate t x

def Allocates (r : Run c K Obj) (i : ℕ) (t : T) (x : Obj) : Prop :=
  i < r.len ∧ ∃ fresh, r.act i = .allocate t fresh ∧ (r.state i).allocated t fresh = x

/-- A thread stores a newer version into its slot. -/
def Stores (r : Run c K Obj) (i : ℕ) (t : T) : Prop :=
  i < r.len ∧ r.act i = .pool (.next t) ∧
    ∃ v, (r.state i).pool.pc t = .storeSlot v ∧ (r.state i).pool.thread_slots t < v

/-- No block comes back before every thread has stored a newer version. -/
def GracePeriod (r : Run c K Obj) : Prop :=
  ∀ i j t u x, Deallocates r i t x → Allocates r j u x → i < j →
    ∀ w, ∃ k, i < k ∧ k < j ∧ Stores r k w

/-- Only a step of the pool touches the pool. -/
lemma pool_or_same {s s' : State c K Obj} {a : Act c K Obj} (hs : step s a = some s') :
    (∃ b, a = .pool b) ∨ s'.pool = s.pool := by
  cases a with
  | pool b => exact .inl ⟨b, rfl⟩
  | deallocate t x | requeue t x | allocate t x =>
    right
    simp only [step] at hs
    split at hs <;> cases hs <;> rfl

lemma slot_step {s s' : State c K Obj} {a : Act c K Obj} {w : T} (hs : step s a = some s')
    (hno : ∀ v, a = .pool (.next w) → s.pool.pc w = .storeSlot v → ¬ s.pool.thread_slots w < v) :
    s'.pool.thread_slots w = s.pool.thread_slots w := by
  rcases pool_or_same hs with ⟨b, rfl⟩ | hsame
  · obtain ⟨hpool, -, -⟩ := pool_step hs
    generalize s'.pool = pool at hpool ⊢
    cases steps_of_step hpool with
    | lists | enter | deliver => rfl
    | moves t _ hm =>
      cases hm with
      | store v hpc hv =>
        have hw : w ≠ t := by
          rintro rfl
          exact hno v rfl hpc hv
        simp [State.setPc, State.setLimbo, hw]
      | _ => rfl
  · rw [hsame]

variable {r : Run c K Obj}

lemma run_counted (hc : c.nodes = 1) (i : ℕ) (hi : i ≤ r.len) : Counted (r.state i).pool := by
  induction i with
  | zero => exact counted_initial r.start.1
  | succ i ih =>
    have hs := r.next i (by omega)
    have hold := ih (by omega)
    rcases pool_or_same hs with ⟨b, hb⟩ | hsame
    · rw [hb] at hs
      obtain ⟨hpool, -, hsmall⟩ := pool_step hs
      exact counted_step hold hc hpool hsmall
    · rw [hsame]
      exact hold

lemma held_until {i j : ℕ} {t : T} {x : Obj} (hd : Deallocates r i t x) (hj : j ≤ r.len)
    (hij : i < j) (hno : ∀ k u, i < k → k < j → ¬ Allocates r k u x) :
    Held ((r.state i).cycles t) t x (r.state j) := by
  have hstart := (held_deallocate (hd.2 ▸ r.next i hd.1)).1
  refine r.from_on (I := fun _ s => Held ((r.state i).cycles t) t x s) hj hstart
    (fun k hk hkj h hs => held_step h hs fun u fresh ha hx => ?_) j hij le_rfl
  exact hno k u hk hkj ⟨by omega, fresh, ha, hx⟩

lemma slot_until {i j : ℕ} {w : T} (hij : i ≤ j) (hj : j ≤ r.len)
    (hno : ∀ k, i ≤ k → k < j → ¬ Stores r k w) :
    (r.state j).pool.thread_slots w = (r.state i).pool.thread_slots w := by
  refine r.from_on (I := fun _ s => s.pool.thread_slots w = (r.state i).pool.thread_slots w) hj rfl
    (fun k hk hkj h hs => ?_) j hij le_rfl
  refine (slot_step hs fun v ha hpc hv => ?_).trans h
  exact hno k hk hkj ⟨by omega, ha, v, hpc, hv⟩

/-- All threads store before the first reuse. -/
lemma stores_before_reuse (hc : c.nodes = 1) {i j : ℕ} {t u w : T} {x : Obj}
    (hd : Deallocates r i t x) (ha : Allocates r j u x) (hij : i < j)
    (hfirst : ∀ k u, i < k → k < j → ¬ Allocates r k u x) : ∃ k, i < k ∧ k < j ∧ Stores r k w := by
  by_contra hno
  obtain ⟨hj, fresh, hact, hx⟩ := ha
  have hstores : ∀ k, i ≤ k → k < j → ¬ Stores r k w := by
    rintro k hk hkj hst
    rcases Nat.eq_or_lt_of_le hk with rfl | hik
    · have hother := hst.2.1
      rw [hd.2] at hother
      cases hother
    · exact hno ⟨k, hik, hkj, hst⟩
  have hslot := slot_until hij.le hj.le hstores
  have hheld := held_until hd hj.le hij hfirst
  have hcycles := held_allocate hheld (hact ▸ r.next j hj) hx
  have hhome : c.home t = c.home w := by
    apply Fin.ext
    have ht := (c.home t).isLt
    have hw := (c.home w).isLt
    omega
  have hbefore : (r.state i).pool.thread_slots w ≤ (r.state i).cycles t + 1 := by
    have hcounted := run_counted hc i hd.1.le
    have hown := hcounted.own.slot w
    have hversion := hcounted.counted (c.home w)
    simp only [State.cycles, hhome]
    omega
  have hafter : (r.state j).cycles t ≤ (r.state j).pool.thread_slots w := by
    simp only [State.cycles, hhome]
    exact (run_counted hc j hj.le).cycle_le w
  omega

theorem gracePeriod (hc : c.nodes = 1) (r : Run c K Obj) : GracePeriod r := by
  classical
  intro i j t u x hd ha hij w
  have hex : ∃ k, i < k ∧ ∃ u, Allocates r k u x := ⟨j, hij, u, ha⟩
  obtain ⟨hik, v, hv⟩ := Nat.find_spec hex
  have hle : Nat.find hex ≤ j := Nat.find_min' hex ⟨hij, u, ha⟩
  obtain ⟨k, h1, h2, h3⟩ := stores_before_reuse hc (w := w) hd hv hik
    fun k u hk hkf hal => Nat.find_min hex hkf ⟨hk, u, hal⟩
  exact ⟨k, h1, by omega, h3⟩

/-! ### Two epochs of two threads -/

def empty : State solo ℕ ℕ where
  pool := Ebr.fresh
  free_lists _ _ := []

lemma initial_empty : (machine solo ℕ ℕ).init empty := ⟨initial_fresh, fun _ _ => rfl⟩

/-- Both threads raise their slots, and `true` completes the epoch. -/
def epoch : List (Act solo ℕ ℕ) :=
  .pool (.matchVersion false false) :: List.replicate 4 (.pool (.next false)) ++
  .pool (.matchVersion true false) :: List.replicate 9 (.pool (.next true))

instance : Inhabited (Act solo ℕ ℕ) := ⟨.pool default⟩

def reuseRun : Run solo ℕ ℕ :=
  .ofActs (machine solo ℕ ℕ) empty (.deallocate false 7 :: epoch ++ epoch ++ [.allocate false 8])
    initial_empty (by decide +kernel)

theorem gracePeriod_reuseRun :
    GracePeriod reuseRun ∧ Deallocates reuseRun 0 false 7 ∧ Allocates reuseRun 31 false 7 :=
  ⟨gracePeriod rfl reuseRun, ⟨by decide, rfl⟩, by decide, 8, rfl, by decide +kernel⟩

end ObjectCache.Ebr.Accompany
