import ObjectCache.Ebr.Solo
import Mathlib.Data.Fintype.Option

/-! Versions on a run: each node passes on each version once, and in order. -/

namespace ObjectCache.Ebr

open Lib

set_option linter.unusedSectionVars false

variable {T Obj : Type} [DecidableEq T] [DecidableEq Obj] {c : Config T}

def InOrder (r : Run c Obj) : Prop := ∀ i < r.len, (r.act i).InOrder

def Fits (r : Run c Obj) : Prop := ∀ i ≤ r.len, (r.state i).Fits

/-- A thread of the node makes its step at `pc`. -/
def StepsAt (r : Run c Obj) (i : ℕ) (n : Fin c.nodes) (t : T) (pc : Pc T) : Prop :=
  i < r.len ∧ r.act i = .next t ∧ c.home t = n ∧ (r.state i).pc t = pc

/-- A thread finds another version when it exchanges `at_version`. -/
def Passes (r : Run c Obj) (i : ℕ) (n : Fin c.nodes) (v : ℕ) : Prop :=
  ∃ t, StepsAt r i n t (.exchangeAt v) ∧ (r.state i).at_version n ≠ v

def Counts (r : Run c Obj) (i : ℕ) (n : Fin c.nodes) (v : ℕ) : Prop :=
  ∃ t, StepsAt r i n t (.incCycles v)

def Sends (r : Run c Obj) (i : ℕ) (n : Fin c.nodes) (v : ℕ) : Prop :=
  ∃ t, StepsAt r i n t (.writeNext v)

def Pc.writes : Pc T → Bool
  | .writeNext _ => true
  | _ => false

def sendsAt (s : State c Obj) (n : Fin c.nodes) : Act c Obj → Bool
  | .next t => c.home t = n && (s.pc t).writes
  | _ => false

/-- The number of versions a node sends before position `i`. -/
def sentBefore (r : Run c Obj) (n : Fin c.nodes) (i : ℕ) : ℕ :=
  (List.range i).countP fun k => sendsAt (r.state k) n (r.act k)

/-- Some thread has counted the version that it is about to send. -/
def State.writing (s : State c Obj) (n : Fin c.nodes) : Bool :=
  (c.members n).any fun t => (s.pc t).writes

/-- No version passes, is counted or is sent twice, and none comes after a later one. -/
structure Travels (r : Run c Obj) : Prop where
  passes : ∀ n v i j, Passes r i n v → Passes r j n v → i = j
  counts : ∀ n v i j, Counts r i n v → Counts r j n v → i = j
  sends : ∀ n v w i j, Sends r i n v → Sends r j n w → i < j → v < w
  grows : ∀ n i j, i ≤ j → j ≤ r.len → (r.state i).my_version n ≤ (r.state j).my_version n

/-- `cycles` counts the versions sent, the one about to be sent included. -/
def CyclesCount (r : Run c Obj) : Prop :=
  ∀ n i, i ≤ r.len → (r.state i).cycles n =
    sentBefore r n i + if (r.state i).writing n then 1 else 0

variable {r : Run c Obj}

lemma run_ring (ho : InOrder r) (hf : Fits r) (i : ℕ) (hi : i ≤ r.len) : Ring (r.state i) := by
  induction i with
  | zero => exact ring_initial r.start
  | succ i ih =>
    have hlt : i < r.len := by omega
    exact ring_step (ih hlt.le) (run_inv r i hlt.le) (hf i hlt.le) (ho i hlt) (r.next i hlt)

lemma run_beyond (ho : InOrder r) (hf : Fits r) {stage : Pc T → Prop}
    (hstage : ∀ w, stage (.writeNext w) → stage (.incCycles w)) {n : Fin c.nodes} {v i j : ℕ}
    (hi : Beyond stage n v (r.state i)) (hij : i ≤ j) (hj : j ≤ r.len) :
    Beyond stage n v (r.state j) := by
  refine r.from_on (I := fun _ s => Beyond stage n v s) hj hi ?_ j hij le_rfl
  intro k _ hk hb hs
  exact beyond_step hstage (run_ring ho hf k (by omega)) (hf k (by omega)) hb hs

/-- Of two passes of one node the later one is of a later version. -/
lemma passes_lt (ho : InOrder r) (hf : Fits r) {n : Fin c.nodes} {v w i j : ℕ}
    (hi : Passes r i n v) (hj : Passes r j n w) (hij : i < j) : v < w := by
  obtain ⟨t, ⟨hlt, hact, rfl, hpc⟩, hat⟩ := hi
  obtain ⟨u, ⟨hjlt, -, hu, hupc⟩, huat⟩ := hj
  have htaken := (run_ring ho hf i hlt.le).taken t v (by rw [hpc]; rfl)
  have hfit := hf i hlt.le (c.home t)
  have hs := r.next i hlt
  rw [hact] at hs
  simp only [machine, step, matchStep, hpc, if_pos hat, Option.some.injEq] at hs
  have hstart : Beyond (fun _ => False) (c.home t) v (r.state (i + 1)) := by
    refine ⟨?_, fun _ _ _ _ h => h.elim⟩
    rw [← hs, toInt_of_lt (by omega)]
    simp [State.setPc]
  have hb := (run_beyond ho hf (fun _ h => h) hstart hij hjlt.le).1
  have huring := run_ring ho hf j hjlt.le
  have hle := huring.at_le u
  rw [huring.scanned u w (by rw [hupc]; rfl), hu] at hle
  omega

/-- A winner only moves itself. -/
lemma moves_of_won {s s' : State c Obj} {t : T} {v : ℕ} (h : Moves s t s')
    (hv : (s.pc t).won = some v) :
    s'.at_version = s.at_version ∧ ∀ u, u ≠ t → s'.pc u = s.pc u := by
  cases h with
  | count | write | send => exact ⟨rfl, fun u hu => Function.update_of_ne hu ..⟩
  | read hpc =>
    rw [hpc] at hv
    cases hv
  | store w hpc | keep w hpc | scanned w hpc | load w hpc | late w hpc | pass w hpc | lose w hpc =>
    rw [hpc] at hv
    cases hv
  | lag w u us hpc | check w u us hpc =>
    rw [hpc] at hv
    cases hv

/-- The same for two winners that make the same step. -/
lemma wins_lt (ho : InOrder r) (hf : Fits r) (stage : Pc T → Prop)
    (hstage : ∀ w, stage (.writeNext w) → stage (.incCycles w)) {n : Fin c.nodes} {t u : T}
    {pc pc' : Pc T} {v w i j : ℕ} (hi : StepsAt r i n t pc) (hv : pc.won = some v)
    (hleft : ¬ (stage ((r.state (i + 1)).pc t) ∧ ((r.state (i + 1)).pc t).won ≠ none))
    (hj : StepsAt r j n u pc') (hw : pc'.won = some w) (hpc' : stage pc') (hij : i < j) : v < w := by
  obtain ⟨hlt, hact, rfl, hpc⟩ := hi
  obtain ⟨hjlt, -, hu, hupc⟩ := hj
  have hring := run_ring ho hf i hlt.le
  have hwon : ((r.state i).pc t).won = some v := by rw [hpc, hv]
  have hs := r.next i hlt
  rw [hact] at hs
  have hkeep := moves_of_won (moves_of_matchStep hs) hwon
  have hstart : Beyond stage (c.home t) v (r.state (i + 1)) := by
    refine ⟨?_, fun u' w' hu' hw' hst => ?_⟩
    · rw [hkeep.1]
      exact (hring.won t v hwon).1.ge
    · by_cases hut : u' = t
      · subst hut
        exact absurd ⟨hst, by rw [hw']; simp⟩ hleft
      · rw [hkeep.2 u' hut] at hw'
        exact absurd (hring.alone u' t w' v hu' hw' hwon) hut
  have hb := run_beyond ho hf hstage hstart hij hjlt.le
  exact hb.2 u w hu (by rw [hupc, hw]) (hupc ▸ hpc')

lemma counts_lt (ho : InOrder r) (hf : Fits r) {n : Fin c.nodes} {v w i j : ℕ}
    (hi : Counts r i n v) (hj : Counts r j n w) (hij : i < j) : v < w := by
  obtain ⟨t, hi⟩ := hi
  obtain ⟨u, hj⟩ := hj
  refine wins_lt ho hf (fun pc => pc.writes = false) (fun _ h => rfl) hi rfl ?_ hj rfl rfl hij
  have hs := r.next i hi.1
  rw [hi.2.1] at hs
  simp only [machine, step, matchStep, hi.2.2.2, Option.some.injEq] at hs
  rw [← hs]
  simp [State.setPc, Pc.writes]

lemma sends_lt (ho : InOrder r) (hf : Fits r) {n : Fin c.nodes} {v w i j : ℕ}
    (hi : Sends r i n v) (hj : Sends r j n w) (hij : i < j) : v < w := by
  obtain ⟨t, hi⟩ := hi
  obtain ⟨u, hj⟩ := hj
  refine wins_lt ho hf (fun _ => True) (fun _ _ => trivial) hi rfl ?_ hj rfl trivial hij
  have hs := r.next i hi.1
  rw [hi.2.1] at hs
  simp only [machine, step, matchStep, hi.2.2.2] at hs
  split_ifs at hs <;> rw [← Option.some.inj hs] <;> simp [State.setPc, Pc.won]

lemma run_version_le (ho : InOrder r) (hf : Fits r) (n : Fin c.nodes) {i j : ℕ} (hij : i ≤ j)
    (hj : j ≤ r.len) : (r.state i).my_version n ≤ (r.state j).my_version n := by
  refine r.from_on (I := fun _ s => (r.state i).my_version n ≤ s.my_version n) hj le_rfl ?_ j hij
    le_rfl
  intro k _ hk hle hs
  exact hle.trans (version_step (run_ring ho hf k (by omega)) (ho k (by omega)) hs n)

lemma travels (ho : InOrder r) (hf : Fits r) : Travels r where
  passes n v i j hi hj := by
    rcases Nat.lt_trichotomy i j with hij | rfl | hij
    · exact absurd (passes_lt ho hf hi hj hij) (Nat.lt_irrefl v)
    · rfl
    · exact absurd (passes_lt ho hf hj hi hij) (Nat.lt_irrefl v)
  counts n v i j hi hj := by
    rcases Nat.lt_trichotomy i j with hij | rfl | hij
    · exact absurd (counts_lt ho hf hi hj hij) (Nat.lt_irrefl v)
    · rfl
    · exact absurd (counts_lt ho hf hj hi hij) (Nat.lt_irrefl v)
  sends n v w i j hi hj hij := sends_lt ho hf hi hj hij
  grows n i j hij hj := run_version_le ho hf n hij hj

/-! ### The count of cycles -/

lemma State.writing_iff {s : State c Obj} {n : Fin c.nodes} :
    s.writing n = true ↔ ∃ t, c.home t = n ∧ (s.pc t).writes = true := by
  simp only [State.writing, List.any_eq_true, c.mem_members]

lemma Pc.won_of_writes {pc : Pc T} (h : pc.writes = true) : ∃ v, pc.won = some v := by
  cases pc <;> simp_all [Pc.writes, Pc.won]

lemma State.writing_congr {s s' : State c Obj} {n : Fin c.nodes}
    (h : ∀ t, c.home t = n → (s'.pc t).writes = (s.pc t).writes) : s'.writing n = s.writing n := by
  rw [Bool.eq_iff_iff, State.writing_iff, State.writing_iff]
  constructor
  · rintro ⟨t, ht, hw⟩
    exact ⟨t, ht, (h t ht) ▸ hw⟩
  · rintro ⟨t, ht, hw⟩
    exact ⟨t, ht, (h t ht).symm ▸ hw⟩

lemma State.Unwon.writing {s : State c Obj} {n : Fin c.nodes} (h : s.Unwon n) :
    s.writing n = false := by
  rw [Bool.eq_false_iff]
  intro hw
  obtain ⟨t, ht, hw⟩ := State.writing_iff.mp hw
  obtain ⟨v, hv⟩ := Pc.won_of_writes hw
  rw [h t ht] at hv
  cases hv

lemma writes_setPc {s : State c Obj} {t : T} {pc : Pc T} (h : pc.writes = (s.pc t).writes) (u : T) :
    ((s.setPc t pc).pc u).writes = (s.pc u).writes := by
  rw [State.setPc_pc]
  by_cases hu : u = t
  · subst hu
    rw [Function.update_self, h]
  · rw [Function.update_of_ne hu]

/-- A winner is the only one on its node that can stand before the write. -/
lemma Ring.writing_eq {s : State c Obj} (h : Ring s) {t : T} (hwon : (s.pc t).won ≠ none) :
    s.writing (c.home t) = (s.pc t).writes := by
  obtain ⟨w, hw⟩ := Option.ne_none_iff_exists'.mp hwon
  rw [Bool.eq_iff_iff, State.writing_iff]
  constructor
  · rintro ⟨u, hu, hwrites⟩
    obtain ⟨v, hv⟩ := Pc.won_of_writes hwrites
    rwa [← h.alone u t v w hu hv hw]
  · intro hwrites
    exact ⟨t, rfl, hwrites⟩

/-- The balance of one step. -/
lemma cycles_step {s s' : State c Obj} {a : Act c Obj} (h : Ring s) (h' : Ring s')
    (hs : step s a = some s') (n : Fin c.nodes) :
    s'.cycles n + (if s.writing n then 1 else 0) =
      s.cycles n + (if sendsAt s n a then 1 else 0) + if s'.writing n then 1 else 0 := by
  have hsame : s'.cycles n = s.cycles n → sendsAt s n a = false →
      (∀ t, c.home t = n → (s'.pc t).writes = (s.pc t).writes) →
      s'.cycles n + (if s.writing n then 1 else 0) =
        s.cycles n + (if sendsAt s n a then 1 else 0) + if s'.writing n then 1 else 0 := by
    intro hcycles hsends hwrites
    rw [hcycles, hsends, State.writing_congr hwrites]
    simp
  cases steps_of_step hs with
  | lists _ ha =>
    refine hsame rfl ?_ fun _ _ => rfl
    cases a with
    | next t => exact absurd rfl (ha t)
    | _ => rfl
  | enter t o counter hpc =>
    refine hsame rfl rfl fun u _ => ?_
    exact writes_setPc (s := { s with counter := counter }) (by rw [hpc]; rfl) u
  | deliver => exact hsame rfl rfl fun _ _ => rfl
  | moves t _ hm =>
    have hidle : ∀ pc : Pc T, s.pc t = pc → pc.writes = false → ∀ s₁ : State c Obj,
        s₁.cycles = s.cycles → s₁.pc = s.pc → ∀ pc' : Pc T, pc'.writes = false →
        (s₁.setPc t pc').cycles n + (if s.writing n then 1 else 0) =
          s.cycles n + (if sendsAt s n (.next t) then 1 else 0) +
            if (s₁.setPc t pc').writing n then 1 else 0 := by
      intro pc hpc hw s₁ hcycles hpcs pc' hw'
      have hwrites : ∀ u, ((s₁.setPc t pc').pc u).writes = (s.pc u).writes := by
        intro u
        rw [writes_setPc (by rw [hpcs, hpc, hw, hw']), hpcs]
      rw [State.writing_congr fun u _ => hwrites u]
      have hc : (s₁.setPc t pc').cycles = s.cycles := hcycles
      simp [sendsAt, hpc, hw, hc]
    -- a winner that changes `pc`
    have hwinner : ∀ pc : Pc T, s'.pc = Function.update s.pc t pc → c.home t ≠ n →
        s'.writing n = s.writing n := by
      intro pc hpc hn
      refine State.writing_congr fun u hu => ?_
      have hut : u ≠ t := by
        rintro rfl
        exact hn hu
      rw [hpc, Function.update_of_ne hut]
    have hdone : ∀ {v : ℕ}, s'.pc = Function.update s.pc t .operating → (s.pc t).won = some v →
        s'.writing (c.home t) = false := by
      intro v hpc hv
      have hafter : ∀ u, c.home u = c.home t →
          (s'.pc u).writes = ((s.setPc t .operating).pc u).writes := fun u _ => by rw [hpc]; rfl
      rw [State.writing_congr hafter, (h.unwon_leave hv).writing]
    cases hm with
    | read hpc => exact hidle _ hpc rfl s rfl rfl _ rfl
    | store v hpc => exact hidle _ hpc rfl _ rfl rfl _ rfl
    | keep v hpc | scanned v hpc | load v hpc | late v hpc => exact hidle _ hpc rfl s rfl rfl _ rfl
    | lag v u us hpc | check v u us hpc => exact hidle _ hpc rfl s rfl rfl _ rfl
    | pass v hpc | lose v hpc => exact hidle _ hpc rfl _ rfl rfl _ rfl
    | count v hpc =>
      by_cases hn : c.home t = n
      · subst hn
        have hold := h.writing_eq (t := t) (by simp [hpc, Pc.won])
        have hnew := h'.writing_eq (t := t) (by simp [State.setPc, Pc.won])
        rw [hold, hnew]
        simp [hpc, State.setPc, Pc.writes, sendsAt]
      · rw [hwinner (.writeNext v) rfl hn]
        simp [State.setPc, sendsAt, hn, Ne.symm hn]
    | write v hpc | send v hpc =>
      by_cases hn : c.home t = n
      · subst hn
        have hold := h.writing_eq (t := t) (by simp [hpc, Pc.won])
        rw [hold, hdone rfl (by rw [hpc]; rfl)]
        simp [Pc.writes, sendsAt, hpc, State.setPc]
      · rw [hwinner .operating rfl hn]
        simp [State.setPc, sendsAt, hn]

lemma cyclesCount (ho : InOrder r) (hf : Fits r) : CyclesCount r := by
  intro n i hi
  induction i with
  | zero =>
    have hno : (r.state 0).Unwon n := by
      intro t _
      rw [(r.start.2 t).2.2.2]
      rfl
    rw [(r.start.1 n).2.2.1, hno.writing]
    rfl
  | succ i ih =>
    have hlt : i < r.len := by omega
    have hstep := cycles_step (run_ring ho hf i hlt.le) (run_ring ho hf (i + 1) hi) (r.next i hlt) n
    rw [ih hlt.le] at hstep
    simp only [sentBefore, List.range_succ, List.countP_append, List.countP_singleton]
    simp only [sentBefore] at hstep
    omega

/-- While all versions fit into an `int`, each node passes, counts and sends a version once, in
increasing order, and `cycles` counts the versions sent and the one about to be sent. -/
theorem travels_and_count (r : Run c Obj) (ho : InOrder r) (hf : Fits r) :
    Travels r ∧ CyclesCount r :=
  ⟨travels ho hf, cyclesCount ho hf⟩

/-! ### Two nodes, two threads on one of them -/

/-- `cycles` is the number of versions sent, also while a thread is about to send. -/
def CyclesEqual (r : Run c Obj) : Prop :=
  ∀ n i, i ≤ r.len → (r.state i).cycles n = sentBefore r n i

/-- The steps of one thread until it is back are steps of the machine. -/
lemma exists_acts_finish (t : T) (fuel : ℕ) (s : State c Obj) : ∃ as : List (Act c Obj),
    (∀ a ∈ as, a.InOrder) ∧ (machine c Obj).exec s as = some (s.finish t fuel) := by
  induction fuel generalizing s with
  | zero => exact ⟨[], by simp, rfl⟩
  | succ fuel ih =>
    cases hs : matchStep s t with
    | none => exact ⟨[], by simp, by simp [State.finish, hs, Machine.exec]⟩
    | some s' =>
      obtain ⟨as, has, hexec⟩ := ih s'
      refine ⟨.next t :: as, ?_, ?_⟩
      · intro a ha
        rcases List.mem_cons.mp ha with rfl | ha
        · trivial
        · exact has a ha
      · simpa [Machine.exec, machine, step, hs, State.finish] using hexec

/-- Writes arrive in order on the way from one state to another. -/
def LeadsTo (s s' : State c Obj) : Prop :=
  ∃ as : List (Act c Obj), (∀ a ∈ as, a.InOrder) ∧ (machine c Obj).exec s as = some s'

lemma LeadsTo.trans {s s' s'' : State c Obj} (h : LeadsTo s s') (h' : LeadsTo s' s'') :
    LeadsTo s s'' := by
  obtain ⟨as, has, hexec⟩ := h
  obtain ⟨bs, hbs, hexec'⟩ := h'
  refine ⟨as ++ bs, ?_, by rw [Machine.exec_append, hexec]; exact hexec'⟩
  intro a ha
  rcases List.mem_append.mp ha with ha | ha
  · exact has a ha
  · exact hbs a ha

lemma leadsTo_of_step {s s' : State c Obj} {a : Act c Obj} (ha : a.InOrder)
    (h : step s a = some s') : LeadsTo s s' :=
  ⟨[a], by simpa using ha, by simp [Machine.exec, machine, h]⟩

lemma leadsTo_matchVersion (s : State c Obj) (t : T) (h : s.pc t = .operating) (o : Bool) :
    LeadsTo s (s.matchVersion t o) := by
  cases hs : step s (.matchVersion t o) with
  | none => simp [step, h] at hs; split at hs <;> simp at hs
  | some s' =>
    refine (leadsTo_of_step (a := .matchVersion t o) trivial hs).trans ?_
    simp only [State.matchVersion, hs]
    exact exists_acts_finish t _ s'

/-- Node 0 has the threads `some false` and `some true`, node 1 has `none`. -/
def pair : Config (Option Bool) where
  nodes := 2
  home t := if t.isSome then ⟨0, Nat.two_pos⟩ else ⟨1, Nat.one_lt_two⟩
  members n := if n.val = 0 then [some false, some true] else [none]
  mem_members := by decide
  ops_per_epoch := 1

/-- What the two nodes have. -/
def onNodes {α : Type} (a b : α) (n : Fin pair.nodes) : α := if n.val = 0 then a else b

/-- What the three threads have. -/
def onThreads {α : Type} (a b z : α) : Option Bool → α
  | some false => a
  | some true => b
  | none => z

/-- All threads are idle; versions, slots and the rest are given for each node and thread. -/
def idleState (my : ℕ × ℕ) (at_version : ℤ × ℤ) (cycles : ℕ × ℕ) (sent : List ℕ × List ℕ)
    (slots counter : ℕ × ℕ × ℕ) : State pair ℕ where
  my_version := onNodes my.1 my.2
  at_version := onNodes at_version.1 at_version.2
  cycles := onNodes cycles.1 cycles.2
  sent := onNodes sent.1 sent.2
  thread_slots := onThreads slots.1 slots.2.1 slots.2.2
  counter := onThreads counter.1 counter.2.1 counter.2.2
  limbo _ := .empty
  pc _ := .operating

/-- One version has gone round `k` times. -/
def rounds (k : ℕ) : State pair ℕ :=
  idleState (2 * k, 2 * k - 1) (toInt (2 * k - 1), toInt (2 * k)) (k, k) ([], [])
    (2 * k - 1, 2 * k - 1, 2 * k) (k, k, k)

lemma node_cases (n : Fin pair.nodes) : n = pair.home (some true) ∨ n = pair.home none := by
  revert n
  decide

section

variable {α : Type} (a b z x : α)

@[simp]
lemma update_onNodes_some (t : Bool) :
    Function.update (onNodes a b) (pair.home (some t)) x = onNodes x b := by
  funext n
  rcases node_cases n with rfl | rfl <;> rfl

@[simp]
lemma update_onNodes_none : Function.update (onNodes a b) (pair.home none) x = onNodes a x := by
  funext n
  rcases node_cases n with rfl | rfl <;> rfl

@[simp]
lemma update_onThreads_false :
    Function.update (onThreads a b z) (some false) x = onThreads x b z := by
  funext t
  rcases t with _ | _ | _ <;> rfl

@[simp]
lemma update_onThreads_true :
    Function.update (onThreads a b z) (some true) x = onThreads a x z := by
  funext t
  rcases t with _ | _ | _ <;> rfl

@[simp]
lemma update_onThreads_none : Function.update (onThreads a b z) none x = onThreads a b x := by
  funext t
  rcases t with _ | _ | _ <;> rfl

end

section

variable {my cycles : ℕ × ℕ} {at_version : ℤ × ℤ} {sent : List ℕ × List ℕ} {slots counter : ℕ × ℕ × ℕ}

lemma onNodes_some {α : Type} (a b : α) (t : Bool) : onNodes a b (pair.home (some t)) = a := rfl

lemma onNodes_none {α : Type} (a b : α) : onNodes a b (pair.home none) = b := rfl

lemma empty_rotate (t : Option Bool) : Function.update (fun _ : Option Bool =>
    (LimboLists.empty : LimboLists ℕ)) t LimboLists.empty.rotate = fun _ => .empty :=
  Function.update_eq_self ..

/-- The first thread raises its slot; the other one lags. -/
lemma matchVersion_first (h : slots.1 < my.1 + 1) (hlag : slots.2.1 ≠ my.1 + 1) :
    (idleState my at_version cycles sent slots counter).matchVersion (some false) false =
      idleState my at_version cycles sent (my.1 + 1, slots.2) (counter.1 + 1, counter.2) := by
  have hmembers : pair.members (pair.home (some false)) = [some false, some true] := rfl
  have hops : pair.ops_per_epoch = 1 := rfl
  rw [State.matchVersion_false rfl]
  simp [State.closed, State.entered, State.Closes, idleState, onNodes_some, onThreads, h, hmembers, hlag, hops,
    State.setLimbo, State.withCounter, empty_rotate]

/-- The second one follows, and the node moves on. -/
lemma matchVersion_second (h : slots.2.1 < my.1 + 1) (hfirst : slots.1 = my.1 + 1)
    (hat : at_version.1 ≤ my.1) :
    (idleState my at_version cycles sent slots counter).matchVersion (some true) false =
      idleState my (toInt (my.1 + 1), at_version.2) (cycles.1 + 1, cycles.2)
        (sent.1 ++ [my.1 + 1], sent.2) (slots.1, my.1 + 1, slots.2.2)
        (counter.1, counter.2.1 + 1, counter.2.2) := by
  have hmembers : pair.members (pair.home (some true)) = [some false, some true] := rfl
  have hops : pair.ops_per_epoch = 1 := rfl
  have hnext : pair.next (pair.home (some true)) ≠ pair.home (some true) := by decide
  have hlt : at_version.1 < (my.1 : ℤ) + 1 := by omega
  rw [State.matchVersion_false rfl]
  simp [State.closed, State.entered, State.Closes, idleState, onNodes_some, onThreads, h, hmembers, hfirst, hops,
    State.setLimbo, State.withCounter, empty_rotate, State.advanced, hnext, hlt]

/-- The only thread of the other node. -/
lemma matchVersion_third (h : slots.2.2 < my.2 + 1) (hat : at_version.2 ≤ my.2) :
    (idleState my at_version cycles sent slots counter).matchVersion none false =
      idleState my (at_version.1, toInt (my.2 + 1)) (cycles.1, cycles.2 + 1)
        (sent.1, sent.2 ++ [my.2 + 1]) (slots.1, slots.2.1, my.2 + 1)
        (counter.1, counter.2.1, counter.2.2 + 1) := by
  have hmembers : pair.members (pair.home none) = [none] := rfl
  have hops : pair.ops_per_epoch = 1 := rfl
  have hnext : pair.next (pair.home none) ≠ pair.home none := by decide
  have hlt : at_version.2 < (my.2 : ℤ) + 1 := by omega
  rw [State.matchVersion_false rfl]
  simp [State.closed, State.entered, State.Closes, idleState, onNodes_none, onThreads, h, hmembers, hops,
    State.setLimbo, State.withCounter, empty_rotate, State.advanced, hnext, hlt]

lemma step_deliver_first {v : ℕ} {rest : List ℕ} (h : sent.1 = v :: rest) :
    step (idleState my at_version cycles sent slots counter) (.deliver (pair.home (some true)) 0) =
      some (idleState (my.1, v) at_version cycles (rest, sent.2) slots counter) := by
  have hnext : pair.next (pair.home (some true)) = pair.home none := rfl
  simp [step, idleState, onNodes_some, h, hnext]

lemma step_deliver_second {v : ℕ} {rest : List ℕ} (h : sent.2 = v :: rest) :
    step (idleState my at_version cycles sent slots counter) (.deliver (pair.home none) 0) =
      some (idleState (v, my.2) at_version cycles (sent.1, rest) slots counter) := by
  have hnext : pair.next (pair.home none) = pair.home (some true) := rfl
  simp [step, idleState, onNodes_none, h, hnext]

end

lemma rounds_step (k : ℕ) : LeadsTo (rounds k) (rounds (k + 1)) := by
  have hfirst := toInt_le (2 * k - 1)
  have hsecond := toInt_le (2 * k)
  have ha := leadsTo_matchVersion (rounds k) (some false) rfl false
  rw [rounds, matchVersion_first (by simp only []; omega) (by simp only []; omega)] at ha
  refine ha.trans ?_
  have hb := leadsTo_matchVersion (idleState (2 * k, 2 * k - 1) (toInt (2 * k - 1), toInt (2 * k)) (k, k)
    ([], []) (2 * k + 1, 2 * k - 1, 2 * k) (k + 1, k, k)) (some true) rfl false
  rw [matchVersion_second (by simp only []; omega) rfl (by simp only []; omega)] at hb
  refine hb.trans ((leadsTo_of_step (a := .deliver (pair.home (some true)) 0) rfl
    (step_deliver_first rfl)).trans ?_)
  refine (leadsTo_matchVersion _ none rfl false).trans ?_
  rw [matchVersion_third (by simp only []; omega) (by simp only []; omega)]
  refine (leadsTo_of_step (a := .deliver (pair.home none) 0) rfl (step_deliver_second rfl)).trans ?_
  have hodd : 2 * (k + 1) - 1 = 2 * k + 1 := by omega
  have heven : 2 * (k + 1) = 2 * k + 1 + 1 := by omega
  rw [rounds, hodd, heven]
  exact ⟨[], by simp, by simp [Machine.exec]⟩

lemma leadsTo_rounds (k : ℕ) : LeadsTo (rounds 0) (rounds k) := by
  induction k with
  | zero => exact ⟨[], by simp, rfl⟩
  | succ k ih => exact ih.trans (rounds_step k)

/-- The second thread passes while the first stands before its check, which then passes as well. -/
def doublePass : List (Act pair ℕ) :=
  .matchVersion (some false) false :: List.replicate 2 (.next (some false)) ++
  .matchVersion (some true) false :: List.replicate 7 (.next (some true)) ++
  List.replicate 5 (.next (some false))

lemma exec_doublePass : ((machine pair ℕ).exec (rounds (2 ^ 30)) doublePass).isSome := by
  decide +kernel

def Pc.exchanges : Pc T → Option ℕ
  | .exchangeAt v => some v
  | _ => none

lemma Pc.eq_of_exchanges {pc : Pc T} {v : ℕ} (h : pc.exchanges = some v) : pc = .exchangeAt v := by
  cases pc <;> simp_all [Pc.exchanges]

lemma initial_rounds : Initial (rounds 0) := by
  refine ⟨fun n => ?_, fun t => ?_⟩
  · rcases node_cases n with rfl | rfl <;> exact ⟨rfl, rfl, rfl, rfl⟩
  · rcases t with _ | _ | _ <;> exact ⟨rfl, rfl, rfl, rfl⟩

lemma doublePass_second :
    (((machine pair ℕ).walk (rounds (2 ^ 30)) (doublePass.take 10)).pc (some true)).exchanges =
        some (2 ^ 31 + 1) ∧
      ((machine pair ℕ).walk (rounds (2 ^ 30)) (doublePass.take 10)).at_version
        (pair.home (some true)) ≠ ((2 ^ 31 + 1 : ℕ) : ℤ) := by
  decide +kernel

lemma doublePass_first :
    (((machine pair ℕ).walk (rounds (2 ^ 30)) (doublePass.take 15)).pc (some false)).exchanges =
        some (2 ^ 31 + 1) ∧
      ((machine pair ℕ).walk (rounds (2 ^ 30)) (doublePass.take 15)).at_version
        (pair.home (some true)) ≠ ((2 ^ 31 + 1 : ℕ) : ℤ) := by
  decide +kernel

/-- Both threads of a node find another version when they exchange the first one that `at_version`
cannot hold. -/
lemma exists_passes_twice : ∃ r : Run pair ℕ, InOrder r ∧
    ∃ n v i j, i ≠ j ∧ Passes r i n v ∧ Passes r j n v := by
  obtain ⟨as, has, hexec⟩ := leadsTo_rounds (2 ^ 30)
  obtain ⟨r, hlen, hstate, hact, hmem⟩ :=
    Machine.Run.exists_through initial_rounds hexec exec_doublePass
  have hpass : ∀ k t, k < doublePass.length → doublePass.getD k default = .next (some t) →
      (((machine pair ℕ).walk (rounds (2 ^ 30)) (doublePass.take k)).pc (some t)).exchanges =
        some (2 ^ 31 + 1) →
      ((machine pair ℕ).walk (rounds (2 ^ 30)) (doublePass.take k)).at_version
        (pair.home (some true)) ≠ ((2 ^ 31 + 1 : ℕ) : ℤ) →
      Passes r (as.length + k) (pair.home (some true)) (2 ^ 31 + 1) := by
    intro k t hk ht hpc hat
    rw [← hstate k] at hpc hat
    exact ⟨some t, ⟨by omega, (hact k).trans ht, rfl, Pc.eq_of_exchanges hpc⟩, hat⟩
  refine ⟨r, ?_, pair.home (some true), 2 ^ 31 + 1, as.length + 10, as.length + 15, by omega, ?_, ?_⟩
  · intro i hi
    rcases List.mem_append.mp (hmem i hi) with ha | ha
    · exact has _ ha
    · simp only [doublePass, List.mem_append, List.mem_cons, List.mem_replicate] at ha
      rcases ha with ((ha | ⟨-, ha⟩) | ha | ⟨-, ha⟩) | ⟨-, ha⟩ <;> rw [ha] <;> trivial
  · exact hpass 10 true (by decide) rfl doublePass_second.1 doublePass_second.2
  · exact hpass 15 false (by decide) rfl doublePass_first.1 doublePass_first.2

/-- The thread that has counted the first version. -/
def firstCount : List (Act solo ℕ) :=
  .matchVersion true false :: List.replicate 3 (.next true) ++
    .matchVersion false false :: List.replicate 8 (.next false)

def countedRun : Run solo ℕ := .ofActs (machine solo ℕ) fresh firstCount initial_fresh (by decide)

lemma inOrder_countedRun : InOrder countedRun := by
  intro i hi
  have hact : countedRun.act i ∈ firstCount := by
    have hlt : i < firstCount.length := hi
    simp only [countedRun, Machine.Run.ofActs, List.getD_eq_getElem?_getD,
      List.getElem?_eq_getElem hlt, Option.getD_some]
    exact List.getElem_mem hlt
  simp only [firstCount, List.mem_append, List.mem_cons, List.mem_replicate] at hact
  rcases hact with (ha | ⟨-, ha⟩) | ha | ⟨-, ha⟩ <;> rw [ha] <;> trivial

theorem travels_and_count_counted : Travels countedRun ∧ CyclesCount countedRun := by
  refine travels_and_count countedRun inOrder_countedRun fun i hi n => ?_
  have hsmall : ∀ i < 14, ∀ n, (countedRun.state i).my_version n = 0 := by decide
  have hlt : i < 14 := Nat.lt_succ_of_le hi
  rw [hsmall i hlt n]
  norm_num

/-- Before a write `cycles` is ahead, and from `2 ^ 31` on a version can pass twice. -/
theorem not_travels_and_equal :
    (¬ ∀ r : Run solo ℕ, InOrder r → CyclesEqual r) ∧ ¬ ∀ r : Run pair ℕ, InOrder r → Travels r := by
  constructor
  · intro h
    have hequal := h countedRun inOrder_countedRun (solo.home true) 13 (by decide)
    exact absurd hequal (by decide)
  · intro h
    obtain ⟨r, ho, n, v, i, j, hne, hi, hj⟩ := exists_passes_twice
    exact hne ((h r ho).passes n v i j hi hj)

end ObjectCache.Ebr
