import ObjectCache.Bench.Rounds
import ObjectCache.Iht.RdmaMap
import ObjectCache.Lib.Accounts

/-! `iht_run`: the clients meet in rounds, fill the table between two of them, work on it after another and
compare its size with what they have added. -/

set_option linter.unusedSectionVars false

namespace ObjectCache.Bench.IhtRun

open Lib Iht

/-- The table and the clients; `ack` is what a barrier sends, `root_ptr` the pointer of `InitAsFirst`. -/
structure Config (A K T : Type) extends Rdma.Config A K where
  clients : List T
  nodup : clients.Nodup
  ack : ℤ
  root_ptr : ℤ

structure State (A K T : Type) where
  coord : Bench.State T ℤ
  table : Rdma.State A K K T
  delta : T → ℤ

inductive Act (A K T : Type) where
  | coord (a : Bench.Act T ℤ)
  | table (a : Rdma.Act A K K T)

variable {A K T : Type}

instance : Inhabited (Act A K T) := ⟨.coord .turn⟩

/-- The server thread: the roots of the caches, the root pointer, the barriers before and after `populate`,
after `count` and after the operations, the deltas, the last barrier. -/
def script : List Round := [.reduce, .pointer, .barrier, .barrier, .barrier, .barrier, .reduce, .barrier]

def Config.rounds (c : Config A K T) : Bench.Config T ℤ := ⟨c.clients, script, c.ack, c.root_ptr⟩

/-- The operations of `populate` and of the workload: every value is its key. -/
def Plain (op : MapOp K K) : Prop := ∀ k v, op = .insert k v → k = v

variable [DecidableEq A] [DecidableEq K] [DecidableEq T]

/-- Which calls a client makes in the round that it is in. -/
def Client.calls (x : Bench.Client) : MapOp K K → Bool
  | .insert k v => !x.sent && (x.round = 3 || x.round = 5) && k = v
  | .remove _ | .contains _ => !x.sent && x.round = 5

def State.permits (c : Config A K T) (s : State A K T) : Act A K T → Bool
  | .coord (.send t m) =>
    (match s.table.pc t with
      | .idle => true
      | _ => false) && ((s.coord.client t).round ≠ 6 || m = s.delta t)
  | .coord _ => true
  | .table (.call t op) => t ∈ c.clients && Client.calls (s.coord.client t) op
  | .table _ => true

/-- `delta`, as the map's wrapper counts it. -/
def State.delta' (s : State A K T) : Rdma.Act A K K T → T → ℤ
  | .finish t =>
    match s.table.pc t with
    | .done (.insert _ _) none => Function.update s.delta t (s.delta t + 1)
    | .done (.remove _) (some _) => Function.update s.delta t (s.delta t - 1)
    | _ => s.delta
  | _ => s.delta

def step (c : Config A K T) (s : State A K T) (a : Act A K T) : Option (State A K T) :=
  if s.permits c a then
    match a with
    | .coord a => (Bench.step c.rounds s.coord a).map fun coord => { s with coord := coord }
    | .table a => (Rdma.step c.toConfig s.table a).map fun table =>
      { s with table := table, delta := s.delta' a }
  else none

def initial (c : Config A K T) : State A K T where
  coord := Bench.initial
  table := ⟨.initial c.toConfig, fun _ => .idle⟩
  delta _ := 0

def machine (c : Config A K T) : Machine (State A K T) (Act A K T) where
  init s := s = initial c
  step := step c

/-- Every step, with what it requires. -/
inductive Step (c : Config A K T) (s : State A K T) : Act A K T → State A K T → Prop
  | coord {a coord} : (∀ t m, a = .send t m → s.table.pc t = .idle ∧
      ((s.coord.client t).round = 6 → m = s.delta t)) → Bench.Step c.rounds s.coord a coord →
      Step c s (.coord a) { s with coord := coord }
  | table {a table} : (∀ t op, a = .call t op → t ∈ c.clients ∧ Plain op ∧ (s.coord.client t).sent = false ∧
      ((s.coord.client t).round = 3 ∨ (s.coord.client t).round = 5)) →
      Rdma.Step c.toConfig s.table a table → Step c s (.table a) { s with table := table, delta := s.delta' a }

variable {c : Config A K T} {s s' : State A K T} {a : Act A K T} {t u : T} {m : ℤ} {op : MapOp K K}
  {ret : Option K} {table : Rdma.State A K K T} {x : Bench.Client}

lemma calls_cases (h : Client.calls x op = true) :
    Plain op ∧ x.sent = false ∧ (x.round = 3 ∨ x.round = 5) := by
  cases op with
  | insert k v =>
    simp only [Client.calls, Bool.and_eq_true, Bool.not_eq_true', Bool.or_eq_true, decide_eq_true_eq] at h
    refine ⟨fun k' v' he => ?_, h.1.1, h.1.2⟩
    cases he
    exact h.2
  | remove k =>
    simp only [Client.calls, Bool.and_eq_true, Bool.not_eq_true', decide_eq_true_eq] at h
    exact ⟨fun k v he => (by cases he), h.1, .inr h.2⟩
  | contains k =>
    simp only [Client.calls, Bool.and_eq_true, Bool.not_eq_true', decide_eq_true_eq] at h
    exact ⟨fun k v he => (by cases he), h.1, .inr h.2⟩

lemma step_cases (h : step c s a = some s') : Step c s a s' := by
  cases a with
  | coord a =>
    simp only [step, Option.ite_none_right_eq_some, Option.map_eq_some_iff] at h
    obtain ⟨hp, coord, hc, rfl⟩ := h
    refine .coord (fun t m ha => ?_) (Bench.step_cases hc)
    subst ha
    simp only [State.permits, Bool.and_eq_true, Bool.or_eq_true, decide_eq_true_eq] at hp
    refine ⟨?_, fun hr => hp.2.resolve_left (not_not.mpr hr)⟩
    cases hpc : s.table.pc t with
    | idle => rfl
    | _ =>
      rw [hpc] at hp
      cases hp.1
  | table a =>
    simp only [step, Option.ite_none_right_eq_some, Option.map_eq_some_iff] at h
    obtain ⟨hp, table, ht, rfl⟩ := h
    refine .table (fun t op ha => ?_) (Rdma.step_cases ht)
    subst ha
    simp only [State.permits, Bool.and_eq_true, decide_eq_true_eq] at hp
    exact ⟨hp.1, calls_cases hp.2⟩

/-! ### What the clients have in progress -/

/-- The operation of a client, as long as an observer sees it. -/
def opened (c : Rdma.Config A K) : Rdma.Pc A K K → Option (MapOp K K)
  | .idle => none
  | .extendedRead x | .acquire x _ | .readElist x _ | .writeElist x _ _ _ | .rehash x _
  | .changePointer x _ | .permUnlock x | .invalidate x | .unlock x _ => if c.free x.op then none else some x.op
  | .done op _ => if c.free op then none else some op

section Accounts

variable {b : Rdma.Act A K K T} {h : History T (MapOp K K) (Option K)} {curr : Rdma.PList A}
  {cur : Rdma.Cursor A K K} {pc : Rdma.Pc A K K} {e : EList K K}

lemma opened_withElist : opened c.toConfig (Rdma.withElist c.toConfig cur curr e) =
    if c.free cur.op then none else some cur.op := by
  obtain ⟨op, parent_ptr, marked, depth, count⟩ := cur
  rw [Rdma.withElist]
  cases op with
  | contains k =>
    dsimp only
    by_cases hf : c.lock_free
    · rw [if_pos hf]
      rfl
    · rw [if_neg hf]
      rfl
  | insert k v =>
    change _ = some (MapOp.insert k v)
    dsimp only
    split_ifs <;> rfl
  | remove k =>
    change _ = some (MapOp.remove k)
    dsimp only
    split_ifs <;> rfl

/-- A client's step that is neither a call nor a return keeps its operation. -/
lemma opened_put {m : Rdma.Memory A K K} (hpc : opened c.toConfig pc = opened c.toConfig (s.table.pc t)) :
    opened c.toConfig ((s.table.put m t pc).pc u) = opened c.toConfig (s.table.pc u) := by
  by_cases hu : u = t
  · subst hu
    rw [Rdma.put_pc_self, hpc]
  · rw [Rdma.put_pc_other hu]

lemma change_free (h : c.free op = true) : op.change ret = 0 := by
  cases op with
  | contains k => rfl
  | insert k v | remove k => cases h

/-- A return adds to `delta` what the answer says of the map. -/
lemma delta_finish (ht : s.table.pc t = .done op ret) :
    s.delta' (.finish t) = Function.update s.delta t (s.delta t + op.change ret) := by
  have hzero : s.delta = Function.update s.delta t (s.delta t + 0) := by
    rw [add_zero, Function.update_eq_self]
  cases op with
  | insert k v =>
    cases ret with
    | none => simp only [State.delta', ht, MapOp.change]
    | some w => simpa only [State.delta', ht, MapOp.change] using hzero
  | remove k =>
    cases ret with
    | none => simpa only [State.delta', ht, MapOp.change] using hzero
    | some w =>
      simp only [State.delta', ht, MapOp.change]
      rfl
  | contains k => simpa only [State.delta', ht, MapOp.change] using hzero

/-- The clients' accounts follow the table. -/
structure Follows (c : Config A K T) (table : Rdma.State A K K T) (delta : T → ℤ)
    (h : History T (MapOp K K) (Option K)) : Prop where
  opens : ∀ t, (h.account MapOp.change).opens t = opened c.toConfig (table.pc t)
  net : ∀ t, (h.account MapOp.change).net t = delta t

lemma Follows.step (hf : Follows c s.table s.delta h) (hs : Rdma.Step c.toConfig s.table b table) :
    Follows c table (s.delta' b) (h ++ (Rdma.observe c.toConfig s.table b).toList) := by
  have hsame : ∀ {m : Rdma.Memory A K K} {t : T} {pc : Rdma.Pc A K K},
      opened c.toConfig pc = opened c.toConfig (s.table.pc t) →
        Follows c (s.table.put m t pc) s.delta h := by
    intro m t pc hpc
    refine ⟨fun u => ?_, hf.net⟩
    rw [opened_put hpc]
    exact hf.opens u
  cases hs with
  | @call t op ht =>
    by_cases hfree : c.free op
    · simp only [Rdma.observe, hfree, if_true, Option.toList, List.append_nil]
      apply hsame
      rw [ht]
      exact if_pos hfree
    · simp only [Rdma.observe, hfree, Bool.false_eq_true, if_false, Option.toList]
      rw [show s.delta' (.call t op) = s.delta from rfl]
      constructor
      · intro u
        rw [account_call]
        by_cases hu : u = t
        · subst hu
          rw [Rdma.put_pc_self]
          simp only [Function.update_self]
          exact (if_neg hfree).symm
        · rw [Rdma.put_pc_other hu]
          simp only [Function.update_of_ne hu]
          exact hf.opens u
      · intro u
        rw [account_call]
        exact hf.net u
  | @finish t op ret ht =>
    rw [delta_finish ht]
    by_cases hfree : c.free op
    · simp only [Rdma.observe, ht, hfree, if_true, Option.toList, List.append_nil]
      rw [change_free hfree, add_zero, Function.update_eq_self]
      apply hsame
      rw [ht]
      exact (if_pos hfree).symm
    · simp only [Rdma.observe, ht, hfree, Bool.false_eq_true, if_false, Option.toList]
      have hopen : (h.account MapOp.change).opens t = some op := by
        rw [hf.opens t, ht]
        exact if_neg hfree
      constructor
      · intro u
        rw [account_ret]
        by_cases hu : u = t
        · subst hu
          rw [Rdma.put_pc_self]
          exact Function.update_self ..
        · rw [Rdma.put_pc_other hu]
          simp only [Function.update_of_ne hu]
          exact hf.opens u
      · intro u
        rw [account_ret, hopen, hf.net t]
        by_cases hu : u = t
        · subst hu
          simp only [Function.update_self]
          rfl
        · simp only [Function.update_of_ne hu]
          exact hf.net u
  | @read t age x curr pc ht hc hd =>
    simp only [Rdma.observe, Option.toList, List.append_nil]
    apply hsame
    rw [ht]
    cases hd <;> rfl
  | @readElist t x curr p i ht hb =>
    simp only [Rdma.observe, Option.toList, List.append_nil]
    apply hsame
    rw [ht]
    exact opened_withElist
  | @misread t ret x curr q marked ht hb hfree =>
    simp only [Rdma.observe, Option.toList, List.append_nil]
    apply hsame
    rw [ht]
    rfl
  | spin ht hl =>
    simp only [Rdma.observe, Option.toList, List.append_nil]
    exact hf
  | land hn =>
    simp only [Rdma.observe, Option.toList, List.append_nil]
    exact ⟨hf.opens, hf.net⟩
  | @acquire t x curr ht hl | @calcified t x curr ht hl | @writeElist t x curr e ret p i ht hb
  | @changePointer t x new_p ht | @permUnlock t x ht | @invalidate t x ht | @unlock t x ret ht
  | @allocate t new_p x curr p i ht hb hn =>
    simp only [Rdma.observe, Option.toList, List.append_nil]
    apply hsame
    rw [ht]
    rfl

end Accounts

/-! ### The rounds and the table -/

/-- A client is inside `populate` or the workload. -/
def Works (x : Bench.Client) : Prop := x.sent = false ∧ (x.round = 3 ∨ x.round = 5)

/-- A client is between the barriers around its first `count`, or before its second. -/
def Counts (x : Bench.Client) : Prop := x.round = 4 ∧ x.sent = false ∨ 6 < x.round

structure Inv (c : Config A K T) (s : State A K T) : Prop where
  coord : s.coord.Inv c.rounds
  works : ∀ t, s.table.pc t ≠ .idle → t ∈ c.clients ∧ Works (s.coord.client t)
  said : ∀ t ∈ c.clients, ∀ m, s.coord.said 6 t = some m → m = s.delta t
  table : ∃ h a, Atomic.Run (mapObject K K) h a ∧ Rdma.Refines c.toConfig s.table a ∧
    Follows c s.table s.delta h ∧ ∀ t op, Event.call t op ∈ h → t ∈ c.clients ∧ Plain op

lemma collects_of_works (h : x.round = 3 ∨ x.round = 5) : c.rounds.collects x.round = true := by
  rcases h with hr | hr
  · rw [hr]
    rfl
  · rw [hr]
    rfl

section Coord

variable {b : Bench.Act T ℤ} {coord : Bench.State T ℤ} (hs : Bench.Step c.rounds s.coord b coord)

include hs

/-- A client at work stays in its round until it sends. -/
lemma client_of_works (hw : Works (s.coord.client t)) (hb : ∀ m, b ≠ .send t m) :
    coord.client t = s.coord.client t := by
  cases hs with
  | @send u m hu hc hsent =>
    apply Function.update_of_ne
    rintro rfl
    exact hb m rfl
  | @pass u m rest hu hlt hsent hd hlast =>
    apply Function.update_of_ne
    rintro rfl
    have htrue := hsent (collects_of_works hw.2)
    rw [hw.1] at htrue
    cases htrue
  | recv | collect | give | turn => rfl

lemma said_cases (hm : coord.said 6 t = some m) :
    s.coord.said 6 t = some m ∨ b = .send t m ∧ (s.coord.client t).round = 6 := by
  cases hs with
  | @send u m' hu hc hsent =>
    change enter s.coord.said (s.coord.client u).round u (some m') 6 t = some m at hm
    rw [enter_apply] at hm
    split_ifs at hm with hat
    · obtain ⟨hround, rfl⟩ := hat
      cases hm
      exact .inr ⟨rfl, hround.symm⟩
    · exact .inl hm
  | recv | pass | collect | give | turn => exact .inl hm

end Coord

section Table

variable {b : Rdma.Act A K K T} (hs : Rdma.Step c.toConfig s.table b table)

include hs

/-- Only a call starts an operation. -/
lemma busy_cases (hpc : table.pc t ≠ .idle) : s.table.pc t ≠ .idle ∨ ∃ op, b = .call t op := by
  have hput : ∀ {m : Rdma.Memory A K K} {u : T} {pc : Rdma.Pc A K K}, s.table.pc u ≠ .idle →
      (s.table.put m u pc).pc t ≠ .idle → s.table.pc t ≠ .idle := by
    intro m u pc hu hne
    by_cases htu : t = u
    · subst htu
      exact hu
    · rwa [Rdma.put_pc_other htu] at hne
  cases hs with
  | @call u op hu =>
    by_cases htu : t = u
    · subst htu
      exact .inr ⟨op, rfl⟩
    · rw [Rdma.put_pc_other htu] at hpc
      exact .inl hpc
  | spin | land => exact .inl hpc
  | @read u age x curr pc hu | @acquire u x curr hu | @calcified u x curr hu | @readElist u x curr p i hu
  | @writeElist u x curr e ret p i hu | @changePointer u x new_p hu | @permUnlock u x hu | @invalidate u x hu
  | @unlock u x ret hu | @allocate u new_p x curr p i hu | @misread u ret x curr q marked hu
  | @finish u op ret hu => exact .inl (hput (by rw [hu]; simp) hpc)

omit hs in
lemma delta_cases : s.delta' b t = s.delta t ∨ s.table.pc t ≠ .idle := by
  cases b with
  | finish u =>
    by_cases htu : t = u
    · subst htu
      by_cases hidle : s.table.pc t = .idle
      · left
        simp only [State.delta', hidle]
      · exact .inr hidle
    · left
      cases hu : s.table.pc u with
      | done op ret =>
        rw [delta_finish hu]
        exact Function.update_of_ne htu ..
      | _ => simp only [State.delta', hu]
  | call | read | next | allocate | misread | deliver => exact .inl rfl

/-- Nothing happens to a table at rest that nobody calls. -/
lemma table_of_rest (hrest : s.table.AtRest) (hb : ∀ t op, b ≠ .call t op) : table = s.table := by
  obtain ⟨hidle, hfl⟩ := hrest
  cases hs with
  | @call t op ht => exact absurd rfl (hb t op)
  | spin => rfl
  | @land n p i w hn =>
    rw [hfl] at hn
    cases hn
  | @read u age x curr pc hu | @acquire u x curr hu | @calcified u x curr hu | @readElist u x curr p i hu
  | @writeElist u x curr e ret p i hu | @changePointer u x new_p hu | @permUnlock u x hu | @invalidate u x hu
  | @unlock u x ret hu | @allocate u new_p x curr p i hu | @misread u ret x curr q marked hu
  | @finish u op ret hu =>
    rw [hidle u] at hu
    cases hu

end Table

namespace Inv

lemma initial : Inv c (initial c) where
  coord := Bench.Inv.initial
  works t ht := absurd rfl ht
  said t _ m hm := by cases hm
  table := by
    refine ⟨[], _, .init, (Rdma.simulates c.toConfig).init _ rfl, ⟨fun t => rfl, fun t => rfl⟩, ?_⟩
    intro t op ht
    cases ht

/-- A client that has said its delta has no operation in progress. -/
lemma idle_of_said (h : Inv c s) (ht : t ∈ c.clients) (hm : s.coord.said 6 t = some m) :
    s.table.pc t = .idle := by
  by_contra hne
  obtain ⟨hsent, hround⟩ := (h.works t hne).2
  have hsaid := ((h.coord.side t ht).said 6).mp (by rw [hm]; simp)
  rw [hsent] at hsaid
  rcases hsaid.2 with hlt | ⟨-, hx⟩
  · omega
  · cases hx

lemma step (h : Inv c s) (hs : Step c s a s') : Inv c s' := by
  cases hs with
  | @coord b coord hsend hb =>
    refine ⟨h.coord.step hb, fun t ht => ?_, fun t ht m hm => ?_, h.table⟩
    · obtain ⟨hmem, hw⟩ := h.works t ht
      refine ⟨hmem, ?_⟩
      change Works (coord.client t)
      rw [client_of_works hb hw]
      · exact hw
      · rintro m rfl
        exact ht (hsend t m rfl).1
    · rcases said_cases hb hm with hold | ⟨rfl, hround⟩
      · exact h.said t ht m hold
      · exact (hsend t m rfl).2 hround
  | @table b table hcall hb =>
    refine ⟨h.coord, fun t ht => ?_, fun t ht m hm => ?_, ?_⟩
    · rcases busy_cases hb ht with hold | ⟨op, rfl⟩
      · exact h.works t hold
      · obtain ⟨hmem, -, hw⟩ := hcall t op rfl
        exact ⟨hmem, hw⟩
    · have hidle := h.idle_of_said ht hm
      have hsame : s.delta' b t = s.delta t := delta_cases.resolve_right (not_not.mpr hidle)
      exact (h.said t ht m hm).trans hsame.symm
    · obtain ⟨hist, a, hrun, href, hfollows, hcalls⟩ := h.table
      obtain ⟨a', hrun', href'⟩ := href.step hrun hb
      refine ⟨_, a', hrun', href', hfollows.step hb, fun t op hop => ?_⟩
      rcases List.mem_append.mp hop with hop | hop
      · exact hcalls t op hop
      · have hact : b = .call t op := by
          cases b with
          | call u op' =>
            simp only [Rdma.observe] at hop
            split_ifs at hop
            · cases hop
            · rw [Option.toList_some, List.mem_singleton] at hop
              cases hop
              rfl
          | finish u =>
            simp only [Rdma.observe] at hop
            split at hop
            · split_ifs at hop
              · cases hop
              · rw [Option.toList_some, List.mem_singleton] at hop
                cases hop
            · cases hop
          | read | next | allocate | misread | deliver => cases hop
        obtain ⟨hmem, hplain, -⟩ := hcall t op hact
        exact ⟨hmem, hplain⟩

variable (h : Inv c s)

include h

/-- No client is at work while one of them counts. -/
lemma not_works (ht : t ∈ c.clients) (hc : Counts (s.coord.client t)) (hu : u ∈ c.clients) :
    ¬ Works (s.coord.client u) := by
  rintro ⟨hsent, hround⟩
  have hcollects := collects_of_works (c := c) hround
  have hside := h.coord.side u hu
  have hpassed : (s.coord.client u).round < (s.coord.client t).round → False := by
    intro hlt
    have hsaid := (h.coord.passed ht hlt).1 hcollects u hu
    rcases ((hside.said _).mp hsaid).2 with hlt | ⟨-, hx⟩
    · exact absurd hlt (Nat.lt_irrefl _)
    · rw [hsent] at hx
      cases hx
  rcases hc with ⟨hat, hunsent⟩ | hlate
  · rcases hround with hr | hr
    · exact hpassed (by omega)
    · have hsaid := (h.coord.passed hu (q := 4) (by omega)).1 rfl t ht
      rcases (((h.coord.side t ht).said _).mp hsaid).2 with hlt | ⟨-, hx⟩
      · omega
      · rw [hunsent] at hx
        cases hx
  · exact hpassed (by omega)

lemma atRest (ht : t ∈ c.clients) (hc : Counts (s.coord.client t)) (hfl : s.table.memory.in_flight = []) :
    s.table.AtRest := by
  refine ⟨fun u => ?_, hfl⟩
  by_contra hne
  obtain ⟨hu, hw⟩ := h.works u hne
  exact h.not_works ht hc hu hw

/-- A table at rest has as many pairs as the clients have added. -/
lemma count_of_rest (hrest : s.table.AtRest) : ∃ n : ℕ, (n : ℤ) = (c.clients.map s.delta).sum ∧
    ∀ fuel, s.table.memory.allocated.length ≤ fuel →
      Rdma.count c.toConfig s.table.memory fuel = some n := by
  obtain ⟨hist, a, hrun, href, hfollows, hcalls⟩ := h.table
  have hsettles := hrun.settles (mapObject_weighs fun k v => k = v) c.nodup hcalls
  refine ⟨(support a.state).ncard, ?_, fun fuel hfuel => ?_⟩
  · rw [hsettles.total]
    apply congrArg List.sum
    apply List.map_congr_left
    intro t _
    have hidle : a.status t = .idle := by
      rw [href.status t, hrest.1 t]
      rfl
    rw [hidle, hfollows.net t, due]
    · exact add_zero _
    · simp
  · exact Rdma.count_eq href.inv.locks.memory href.holds hsettles.state.1 (href.inv.unlocked hrest) hfuel

/-- What the clients have said of their deltas. -/
lemma heard_deltas (ht : t ∈ c.clients) (hround : 6 < (s.coord.client t).round) :
    s.coord.heard 6 t = c.clients.map s.delta := by
  obtain ⟨hsaid, hheard⟩ := h.coord.passed ht hround
  have hall := hsaid rfl
  rw [hheard]
  change c.clients.filterMap (s.coord.said 6) = _
  rw [← List.filterMap_eq_map]
  apply List.filterMap_congr
  intro u hu
  obtain ⟨m, hm⟩ := Option.ne_none_iff_exists'.mp (hall u hu)
  rw [hm, h.said u hu m hm]
  rfl

/-- An answer that an observer sees is the key of its call. -/
lemma answer (hpc : s.table.pc t = .done op ret) (hf : c.free op = false) : ∀ v, ret = some v → op.key = v := by
  obtain ⟨hist, a, hrun, href, hfollows, hcalls⟩ := h.table
  have hsettles := hrun.settles (mapObject_weighs fun k v => k = v) c.nodup hcalls
  have hstatus : a.status t = .done ret := by
    rw [href.status t, hpc, Rdma.Pc.status, hf]
    rfl
  obtain ⟨op', hopen, -, hanswer⟩ := hsettles.done hstatus
  rw [hfollows.opens t, hpc, opened, hf] at hopen
  cases hopen
  exact hanswer

end Inv

lemma inv_of_reachable (h : (machine c).Reachable s) : Inv c s := by
  apply h.invariant (I := fun s => Inv c s)
  · intro s hs
    rw [hs]
    exact Inv.initial
  · intro s a s' hi hs
    exact hi.step (step_cases hs)

/-! ### What the benchmark checks -/

/-- Both counts of every client see a table that does not change, as large as the deltas of all clients, and
the second is what the client has been told. -/
theorem final_size (h : (machine c).Reachable s) (ht : t ∈ c.clients) (hc : Counts (s.coord.client t))
    (hfl : s.table.memory.in_flight = []) :
    (∀ a s', step c s a = some s' → s'.table = s.table) ∧ ∃ n : ℕ, (n : ℤ) = (c.clients.map s.delta).sum ∧
      (∀ fuel, s.table.memory.allocated.length ≤ fuel → Rdma.count c.toConfig s.table.memory fuel = some n) ∧
        (6 < (s.coord.client t).round → n - (s.coord.heard 6 t).sum = 0) := by
  have hinv := inv_of_reachable h
  have hrest := hinv.atRest ht hc hfl
  obtain ⟨n, hn, hcount⟩ := hinv.count_of_rest hrest
  refine ⟨fun a s' hs => ?_, n, hn, hcount, fun hround => ?_⟩
  · cases step_cases hs with
    | coord _ _ => rfl
    | table hcall hb =>
      apply table_of_rest hb hrest
      rintro u op rfl
      obtain ⟨hu, -, hw⟩ := hcall u op rfl
      exact hinv.not_works ht hc hu hw
  · rw [hinv.heard_deltas ht hround, hn, sub_self]

/-! A run of two clients: one inserts a key before the workload, the other removes it and the first inserts it
again. -/

lemma two_nodup : [false, true].Nodup := by decide

def two : Config ℕ (BitVec 64) Bool := ⟨Rdma.pair false, [false, true], two_nodup, 0, 4096⟩

abbrev TwoState := State ℕ (BitVec 64) Bool

abbrev TwoAct := Act ℕ (BitVec 64) Bool

/-- A round of two messages, and one of a barrier. -/
def reduceActs (m n : ℤ) : List TwoAct :=
  [.send false m, .send true n, .collect true, .collect false, .give false, .give true, .give true, .give false,
    .turn, .recv true, .recv true, .recv false, .recv false].map .coord

def barrierActs : List TwoAct :=
  [.send true 0, .send false 0, .collect false, .collect true, .give true, .give false, .recv true, .recv false,
    .turn].map .coord

/-- An operation that is alone in the table. -/
def soloActs (t : Bool) (op : MapOp (BitVec 64) (BitVec 64)) : List TwoAct :=
  [.call t op, .read t 0, .next t, .next t, .next t, .next t, .deliver 0, .finish t].map .table

def twoActs : List TwoAct :=
  reduceActs 1 2 ++ [.give false, .give true, .turn, .recv false, .recv true].map .coord ++ barrierActs ++
    soloActs false (.insert 1 1) ++ barrierActs ++ barrierActs ++ soloActs true (.remove 1) ++
    soloActs false (.insert 1 1) ++ barrierActs ++ reduceActs 2 (-1)

def twoRun : (machine two : Machine TwoState TwoAct).Run :=
  .ofActs _ (initial two) twoActs rfl (by decide +kernel)

theorem final_size_two : ∃ n : ℕ, Rdma.count two.toConfig (twoRun.state twoRun.len).table.memory 1 = some n ∧
    n - ((twoRun.state twoRun.len).coord.heard 6 false).sum = 0 ∧ n = 1 := by
  have hall := final_size (twoRun.reachable _ le_rfl) (t := false) (by decide) (.inr (by decide +kernel))
    (by decide +kernel)
  obtain ⟨-, n, -, hcount, hsize⟩ := hall
  have hone := hcount 1 (by decide +kernel)
  refine ⟨n, hone, hsize (by decide +kernel), ?_⟩
  have heq : Rdma.count two.toConfig (twoRun.state twoRun.len).table.memory 1 = some 1 := by decide +kernel
  rw [hone, Option.some.injEq] at heq
  exact heq

/-- No assertion on an answer fires in `Client::Apply`, but for a lookup that takes no lock. -/
theorem answers_key (h : (machine c).Reachable s) {v : K} (hpc : s.table.pc t = .done op (some v))
    (hf : c.free op = false) : v = op.key := by
  have hinv := inv_of_reachable h
  exact (hinv.answer hpc hf v rfl).symm

/-- The operation that a client has done, and its answer. -/
def returned : Rdma.Pc A K K → Option (MapOp K K × Option K)
  | .done op ret => some (op, ret)
  | _ => none

lemma done_of_returned {pc : Rdma.Pc A K K} (h : returned pc = some (op, ret)) : pc = .done op ret := by
  cases pc with
  | done op' ret' =>
    cases h
    rfl
  | _ => cases h

/-- The run of two clients up to the answer of the removal. -/
def removedRun : (machine two : Machine TwoState TwoAct).Run :=
  .ofActs _ (initial two) (twoActs.take 60) rfl (by decide +kernel)

theorem answers_key_removed : ∃ op v, (removedRun.state removedRun.len).table.pc true = .done op (some v) ∧
    op = .remove 1 ∧ v = op.key := by
  have hpc : (removedRun.state removedRun.len).table.pc true = .done (.remove 1) (some 1) :=
    done_of_returned (by decide +kernel)
  exact ⟨_, _, hpc, rfl, answers_key (removedRun.reachable _ le_rfl) hpc rfl⟩

end ObjectCache.Bench.IhtRun
