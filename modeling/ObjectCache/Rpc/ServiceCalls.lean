import ObjectCache.Iht.LocalCalls
import ObjectCache.Rpc.Partition
import ObjectCache.Rpc.ServiceMap

/-! The calls of every client of the service, over any internal map and over `iht_carumap`. -/

set_option linter.unusedSectionVars false

namespace ObjectCache.Rpc.Service

open Lib

section Service

variable {D B K V T S σ : Type} [DecidableEq K] [DecidableEq V] [DecidableEq T] [DecidableEq S]
  {c : Config K V T S} {M : Data D B K V (T ⊕ S)} {R : D → Local σ K V T S → Prop}
  {O : Object σ (MapOp K V) (Option V)} {s s' : State D K V T S} {d : ℕ → Local σ K V T S} {a : Global σ K V T}

/-! ### Conversations -/

lemma refines_of_reachable (hM : Implements M.machine O M.obs R) (h : (machine c M).Reachable s) :
    ∃ d a, Refines c R s d a := by
  have hi : Implements (machine c M) (O.divided c.place) observe fun s a => ∃ d, Refines c R s d a := implements hM
  have hinv : ∃ a d, Refines c R s d a := by
    apply h.invariant
    · exact fun s hs => ⟨_, hi.init s hs⟩
    · rintro s x s' ⟨a, hr⟩ hs
      obtain ⟨a', -, hr'⟩ := hi.step s x s' a hr hs
      exact ⟨a', hr'⟩
  obtain ⟨a, d, hr⟩ := hinv
  exact ⟨d, a, hr⟩

lemma Exchange.length_le {op : MapOp K V} {x : Local σ K V T S} {q : Talk K V S}
    {st : Status (MapOp K V) (Option V)} (h : Exchange c op x q st) :
    q.requests.length + q.responses.length ≤ 1 := by
  cases h with
  | requested | responded _ => exact le_rfl
  | handle | handling _ _ | respond _ => exact Nat.zero_le 1

lemma Refines.length_le (h : Refines c R s d a) (n m : ℕ) :
    (s.requests n m).length + (s.responses n m).length ≤ 1 := by
  by_cases hq : s.talk n m = Service.silent
  · obtain ⟨hreq, hres, -⟩ := Talk.mk.inj hq
    rw [hreq, hres]
    exact Nat.zero_le 1
  · obtain ⟨t, op, rfl, ht, -⟩ := h.waits hq
    have htells := h.client t
    rw [ht] at htells
    exact htells.2.2.length_le

/-- Between two nodes at most one message is under way in either direction; no server reads an opcode that it
does not know and no client one that it does not expect. -/
theorem conversation (hM : Implements M.machine O M.obs R) (h : (machine c M).Reachable s) :
    (∀ n m, (s.requests n m).length + (s.responses n m).length ≤ 1) ∧
      (∀ u id p, s.server u = .handle id p → p.op ≠ none) ∧ ∀ t, s.client t ≠ .failed := by
  obtain ⟨d, a, hr⟩ := refines_of_reachable hM h
  refine ⟨hr.length_le, fun u id p hu => hr.expected hu, fun t ht => ?_⟩
  have htells := hr.client t
  rw [ht] at htells
  exact htells

/-- Whatever linearizable map every node has, the calls of all clients are calls of one map. -/
theorem linearizable {R : D → Local (K → Option V) K V T S → Prop}
    (hM : Implements M.machine (mapObject K V) M.obs R) (r : (machine c M).Run) {n : ℕ} (hn : n ≤ r.len) :
    Linearizable (mapObject K V) (r.history observe n) := by
  have hi : Implements (machine c M) ((mapObject K V).divided c.place) observe
    fun s a => ∃ d, Refines c R s d a := implements hM
  exact (hi.simulates.linearizable r hn).reads (mapObject_divided_reads fun k => (c.to_id k).getD 0)

/-! ### Internal maps that are maps on some condition -/

def Data.only (M : Data D B K V (T ⊕ S)) (p : D → B → Bool) : Data D B K V (T ⊕ S) := ⟨M.machine.only p, M.obs⟩

/-- The step is not one inside an internal map, or it meets the condition there. -/
def Meets (p : D → B → Bool) (s : State D K V T S) : Act B K V T S → Bool
  | .data n b _ => p (s.data n) b
  | .call _ _ | .client _ | .server _ | .finish _ => true

variable {p : D → B → Bool}

lemma step_only {x : Act B K V T S} (hp : Meets p s x) : step c (M.only p) s x = step c M s x := by
  cases x with
  | data n b answer =>
    have hstep : (M.only p).machine.step (s.data n) b = M.machine.step (s.data n) b := if_pos hp
    simp only [step, hstep]
    rfl
  | _ => rfl

/-- A run whose first `n` steps all meet the condition. -/
def guarded (r : (machine c M).Run) (n : ℕ) (hn : n ≤ r.len) (hp : ∀ i < n, Meets p (r.state i) (r.act i)) :
    (machine c (M.only p)).Run where
  len := n
  state := r.state
  act := r.act
  start := ⟨r.start.data, r.start.requests, r.start.responses, r.start.lock_table_client,
    r.start.lock_table_server, r.start.client, r.start.server⟩
  next i hi := (step_only (hp i hi)).trans (r.next i (hi.trans_le hn))

lemma guarded_history (r : (machine c M).Run) (n : ℕ) (hn : n ≤ r.len)
    (hp : ∀ i < n, Meets p (r.state i) (r.act i)) (i : ℕ) :
    (guarded r n hn hp).history observe i = r.history observe i := by
  induction i with
  | zero => rfl
  | succ i ih =>
    rw [Machine.Run.history, Machine.Run.history, ih]
    rfl

end Service

/-! ### Over `iht_carumap` -/

section Carumap

variable {K V T S : Type} [DecidableEq K] [DecidableEq V] [DecidableEq T] [DecidableEq S] {c : Config K V T S}
  {e : Iht.Local.Config K}

def carumap (e : Iht.Local.Config K) :
    Data (Iht.Local.State K V (T ⊕ S)) (Iht.Local.Act K V (T ⊕ S)) K V (T ⊕ S) :=
  ⟨Iht.Local.machine e, Iht.Local.observe⟩

lemma carumap_implements : Implements ((carumap e).only (Iht.Local.Aligned e)).machine (mapObject K V)
    ((carumap e : Data _ _ K V (T ⊕ S)).only (Iht.Local.Aligned e)).obs (Iht.Local.Refines e) :=
  Iht.Local.implements

/-- As long as every rehash on every node puts its keys where the next level looks for them, the calls of all
clients are calls of one map. -/
theorem carumap_linearizable (r : (machine c (carumap e)).Run) {n : ℕ} (hn : n ≤ r.len)
    (ha : ∀ i < n, Meets (Iht.Local.Aligned e) (r.state i) (r.act i)) :
    Linearizable (mapObject K V) (r.history observe n) := by
  rw [← guarded_history r n hn ha]
  exact linearizable carumap_implements (guarded r n hn ha) le_rfl

end Carumap

/-! A run of two nodes: a client of the first inserts a key of the second and a client there looks it up. -/

instance {B K V S : Type} : Inhabited (Act B K V Bool S) := ⟨.finish false⟩

def boolId (b : Bool) : ℕ := if b then 1 else 0

/-- The keys from 0 to 4. -/
def twoNodes : Config ℤ ℤ Bool Bool := ⟨fun k => (toId 0 2 0 4 k).toOption.map Int.toNat, 2, 0, boolId, boolId⟩

lemma elist_pos : 1 ≤ 8 := by decide

lemma plist_pos : 1 ≤ 64 := by decide

/-- `iht_carumap<int, int, 8, 64>`. -/
def internal : Iht.Local.Config ℤ := ⟨8, 64, elist_pos, plist_pos, BitVec.ofInt 64⟩

abbrev TwoState := State (Iht.Local.State ℤ ℤ (Bool ⊕ Bool)) ℤ ℤ Bool Bool

abbrev TwoAct := Act (Iht.Local.Act ℤ ℤ (Bool ⊕ Bool)) ℤ ℤ Bool Bool

def twoStart : TwoState := ⟨fun _ => ⟨.empty, fun _ => .idle⟩, fun _ _ => [], fun _ _ => [], fun _ _ => none,
  fun _ _ => none, fun _ => .idle, fun _ => .poll 0⟩

/-- A call that meets no other at its bucket. -/
def insideActs (n : ℕ) (t : Bool ⊕ Bool) (op : MapOp ℤ ℤ) : List TwoAct :=
  (.call t op :: List.replicate 4 (.next t false) ++ [.finish t] : List (Iht.Local.Act ℤ ℤ (Bool ⊕ Bool))).map
    fun b => .data n b 0

def twoActs : List TwoAct :=
  [.call false (.insert 3 30), .client false, .client false, .server true, .server true] ++
    insideActs 1 (.inr true) (.insert 3 30) ++
    [.call true (.contains 3), .server true, .server true, .client false, .client false] ++
    insideActs 1 (.inl true) (.contains 3) ++ [.finish false, .finish true]

lemma twoStart_initial : Initial (carumap internal) twoStart := ⟨fun _ => rfl, rfl, rfl, rfl, rfl, rfl, rfl⟩

lemma two_enabled : ((machine twoNodes (carumap internal)).exec twoStart twoActs).isSome := by decide +kernel

def twoRun : (machine twoNodes (carumap internal)).Run := .ofActs _ twoStart twoActs twoStart_initial two_enabled

lemma two_aligned : ∀ i < 24, Meets (Iht.Local.Aligned internal) (twoRun.state i) (twoRun.act i) := by
  decide +kernel

lemma two_length : 24 ≤ twoRun.len := by decide

theorem carumap_linearizable_two : Linearizable (mapObject ℤ ℤ) (twoRun.history observe 24) ∧
    (twoRun.history observe 24).length = 4 :=
  ⟨carumap_linearizable twoRun two_length two_aligned, by decide +kernel⟩

theorem conversation_two : (twoRun.state 8).requests 0 1 = [] ∧ (twoRun.state 8).responses 0 1 = [] ∧
    ∀ t, (twoRun.state 8).client t ≠ .failed := by
  have hreach := (guarded twoRun 24 two_length two_aligned).reachable 8 (by decide)
  exact ⟨by decide +kernel, by decide +kernel, (conversation carumap_implements hreach).2.2⟩

end ObjectCache.Rpc.Service
