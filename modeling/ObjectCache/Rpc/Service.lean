import ObjectCache.Lib.Implements
import ObjectCache.Lib.MapHistory

/-! `TwoSidedIHT`: the clients of every node send the operations on other nodes' keys to them, one at a time to
each, and the server threads there carry them out. A connection delivers in order. -/

set_option linter.unusedSectionVars false

namespace ObjectCache.Rpc.Service

open Lib

/-- `to_id`, with no answer where it stops the client; the node of each client and server thread. -/
structure Config (K V T S : Type) where
  to_id : K → Option ℕ
  count : ℕ
  zero : V
  client_id : T → ℕ
  server_id : S → ℕ

inductive OpType where
  | unset
  | get_req
  | ins_req
  | rmv_req
  | get_res
  | ins_res
  | rmv_res
  | err
  deriving DecidableEq

/-- `IHTOPProto`. -/
structure Proto (K V : Type) where
  op_type : OpType
  key : K
  value : V
  deriving DecidableEq

inductive Client (K V : Type) where
  | idle
  | query (op : MapOp K V)
  | querying (op : MapOp K V)
  | lock (op : MapOp K V) (target_id : ℕ)
  | send (op : MapOp K V) (target_id : ℕ)
  | deliver (op : MapOp K V) (target_id : ℕ)
  | unlock (op : MapOp K V) (target_id : ℕ) (result : Proto K V)
  | done (op : MapOp K V) (ret : Option V)
  | failed

inductive Server (K V : Type) where
  | poll (id : ℕ)
  | receive (id : ℕ)
  | handle (id : ℕ) (request : Proto K V)
  | handling (id : ℕ) (request : Proto K V)
  | respond (id : ℕ) (response : Proto K V)
  | unlock (id : ℕ)

/-- `internal_data_`, a machine that its threads call. -/
structure Data (D B K V U : Type) where
  machine : Machine D B
  obs : D → B → Option (Event U (MapOp K V) (Option V))

/-- `requests n m` are on their way from the clients of node `n` to node `m`, and `responses n m` back. -/
structure State (D K V T S : Type) where
  data : ℕ → D
  requests : ℕ → ℕ → List (Proto K V)
  responses : ℕ → ℕ → List (Proto K V)
  lock_table_client : ℕ → ℕ → Option T
  lock_table_server : ℕ → ℕ → Option S
  client : T → Client K V
  server : S → Server K V

/-- A step inside the internal map may leave `answer` in a variable that is never set. -/
inductive Act (B K V T S : Type) where
  | call (t : T) (op : MapOp K V)
  | client (t : T)
  | data (n : ℕ) (b : B) (answer : V)
  | server (u : S)
  | finish (t : T)

variable {D B K V T S : Type}

def request (c : Config K V T S) : MapOp K V → Proto K V
  | .contains k => ⟨.get_req, k, c.zero⟩
  | .insert k v => ⟨.ins_req, k, v⟩
  | .remove k => ⟨.rmv_req, k, c.zero⟩

/-- The operation that a server carries out. -/
def Proto.op (p : Proto K V) : Option (MapOp K V) :=
  match p.op_type with
  | .get_req => some (.contains p.key)
  | .ins_req => some (.insert p.key p.value)
  | .rmv_req => some (.remove p.key)
  | .unset | .get_res | .ins_res | .rmv_res | .err => none

def response (p : Proto K V) (ret : Option V) (answer : V) : Proto K V :=
  match p.op_type, ret with
  | .get_req, some v => ⟨.get_res, p.key, v⟩
  | .rmv_req, some v => ⟨.rmv_res, p.key, v⟩
  | .get_req, none | .rmv_req, none => ⟨.err, p.key, answer⟩
  | .ins_req, none => ⟨.ins_res, p.key, p.value⟩
  | .ins_req, some v => ⟨.err, p.key, v⟩
  | _, _ => ⟨.unset, p.key, p.value⟩

/-- What a client returns; nothing where its assertion on the opcode fires. -/
def result (op : MapOp K V) (p : Proto K V) : Option (Option V) :=
  match op, p.op_type with
  | .contains _, .get_res | .remove _, .rmv_res | .insert _ _, .err => some (some p.value)
  | .contains _, .err | .remove _, .err | .insert _ _, .ins_res => some none
  | _, _ => none

/-- What a client returns is what the map has answered. -/
lemma result_response (c : Config K V T S) (op : MapOp K V) (ret : Option V) (answer : V) :
    result op (response (request c op) ret answer) = some ret := by
  cases op <;> cases ret <;> rfl

lemma op_request (c : Config K V T S) (op : MapOp K V) : (request c op).op = some op := by
  cases op <;> rfl

/-- The next peer of the loop. -/
def Config.next (c : Config K V T S) (id : ℕ) : ℕ := if id + 1 < c.count then id + 1 else 0

/-- An entry of a table. -/
def enter {β : Type} (f : ℕ → ℕ → β) (n m : ℕ) (x : β) : ℕ → ℕ → β :=
  Function.update f n (Function.update (f n) m x)

variable [DecidableEq K] [DecidableEq V] [DecidableEq T] [DecidableEq S]

namespace State

def setClient (s : State D K V T S) (t : T) (x : Client K V) : State D K V T S :=
  { s with client := Function.update s.client t x }

def setServer (s : State D K V T S) (u : S) (x : Server K V) : State D K V T S :=
  { s with server := Function.update s.server u x }

end State

def stepClient (c : Config K V T S) (s : State D K V T S) (t : T) : Option (State D K V T S) :=
  let id := c.client_id t
  match s.client t with
  | .lock op m =>
    if s.lock_table_client id m = none then
      some ({ s with lock_table_client := enter s.lock_table_client id m (some t) }.setClient t (.send op m))
    else none
  | .send op m =>
    some ({ s with requests := enter s.requests id m (s.requests id m ++ [request c op]) }.setClient t
      (.deliver op m))
  | .deliver op m =>
    match s.responses id m with
    | [] => none
    | p :: rest =>
      some ({ s with responses := enter s.responses id m rest }.setClient t (.unlock op m p))
  | .unlock op m p =>
    let s := { s with lock_table_client := enter s.lock_table_client id m none }
    match result op p with
    | some ret => some (s.setClient t (.done op ret))
    | none => some (s.setClient t .failed)
  | .idle | .query _ | .querying _ | .done _ _ | .failed => none

def stepServer (c : Config K V T S) (s : State D K V T S) (u : S) : Option (State D K V T S) :=
  let self_id := c.server_id u
  match s.server u with
  | .poll id =>
    if id = self_id then some (s.setServer u (.poll (c.next id)))
    else if s.lock_table_server self_id id = none then
      some ({ s with lock_table_server := enter s.lock_table_server self_id id (some u) }.setServer u
        (.receive id))
    else none
  | .receive id =>
    match s.requests id self_id with
    | [] => some (s.setServer u (.unlock id))
    | p :: rest => some ({ s with requests := enter s.requests id self_id rest }.setServer u (.handle id p))
  | .handle id p =>
    if p.op = none then some (s.setServer u (.respond id ⟨.unset, p.key, p.value⟩)) else none
  | .respond id p =>
    some ({ s with responses := enter s.responses id self_id (s.responses id self_id ++ [p]) }.setServer u
      (.unlock id))
  | .unlock id =>
    some ({ s with lock_table_server := enter s.lock_table_server self_id id none }.setServer u
      (.poll (c.next id)))
  | .handling _ _ => none

/-- A thread of node `n` calls the internal map or returns from it. -/
def stepCaller (c : Config K V T S) (s : State D K V T S) (n : ℕ) (answer : V) :
    Event (T ⊕ S) (MapOp K V) (Option V) → Option (State D K V T S)
  | .call (.inl t) op =>
    match s.client t with
    | .query op' => if c.client_id t = n ∧ op' = op then some (s.setClient t (.querying op)) else none
    | _ => none
  | .ret (.inl t) ret =>
    match s.client t with
    | .querying op => if c.client_id t = n then some (s.setClient t (.done op ret)) else none
    | _ => none
  | .call (.inr u) op =>
    match s.server u with
    | .handle id p =>
      if c.server_id u = n ∧ p.op = some op then some (s.setServer u (.handling id p)) else none
    | _ => none
  | .ret (.inr u) ret =>
    match s.server u with
    | .handling id p =>
      if c.server_id u = n then some (s.setServer u (.respond id (response p ret answer))) else none
    | _ => none

def step (c : Config K V T S) (M : Data D B K V (T ⊕ S)) (s : State D K V T S) :
    Act B K V T S → Option (State D K V T S)
  | .call t op =>
    match s.client t, c.to_id op.key with
    | .idle, some target_id =>
      some (s.setClient t (if target_id = c.client_id t then .query op else .lock op target_id))
    | _, _ => none
  | .client t => stepClient c s t
  | .data n b answer =>
    match M.machine.step (s.data n) b with
    | none => none
    | some d =>
      let s' := { s with data := Function.update s.data n d }
      match M.obs (s.data n) b with
      | none => some s'
      | some e => stepCaller c s' n answer e
  | .server u => stepServer c s u
  | .finish t =>
    match s.client t with
    | .done _ _ => some (s.setClient t .idle)
    | _ => none

structure Initial (M : Data D B K V (T ⊕ S)) (s : State D K V T S) : Prop where
  data : ∀ n, M.machine.init (s.data n)
  requests : s.requests = fun _ _ => []
  responses : s.responses = fun _ _ => []
  lock_table_client : s.lock_table_client = fun _ _ => none
  lock_table_server : s.lock_table_server = fun _ _ => none
  client : s.client = fun _ => .idle
  server : s.server = fun _ => .poll 0

def machine (c : Config K V T S) (M : Data D B K V (T ⊕ S)) : Machine (State D K V T S) (Act B K V T S) where
  init := Initial M
  step := step c M

def observe (s : State D K V T S) : Act B K V T S → Option (Event T (MapOp K V) (Option V))
  | .call t op => some (.call t op)
  | .finish t =>
    match s.client t with
    | .done _ ret => some (.ret t ret)
    | _ => none
  | .client _ | .data _ _ _ | .server _ => none

/-! ### Steps -/

/-- Every step, with what it requires. -/
inductive Step (c : Config K V T S) (M : Data D B K V (T ⊕ S)) (s : State D K V T S) :
    Act B K V T S → State D K V T S → Prop
  | query {t op} : s.client t = .idle → c.to_id op.key = some (c.client_id t) →
      Step c M s (.call t op) (s.setClient t (.query op))
  | remote {t op m} : s.client t = .idle → c.to_id op.key = some m → m ≠ c.client_id t →
      Step c M s (.call t op) (s.setClient t (.lock op m))
  | lock {t op m} : s.client t = .lock op m → s.lock_table_client (c.client_id t) m = none →
      Step c M s (.client t)
        ({ s with lock_table_client := enter s.lock_table_client (c.client_id t) m (some t) }.setClient t
          (.send op m))
  | send {t op m} : s.client t = .send op m →
      Step c M s (.client t) ({ s with
        requests := enter s.requests (c.client_id t) m (s.requests (c.client_id t) m ++ [request c op]) }.setClient t
          (.deliver op m))
  | deliver {t op m p rest} : s.client t = .deliver op m → s.responses (c.client_id t) m = p :: rest →
      Step c M s (.client t)
        ({ s with responses := enter s.responses (c.client_id t) m rest }.setClient t (.unlock op m p))
  | unlock {t op m p ret} : s.client t = .unlock op m p → result op p = some ret →
      Step c M s (.client t)
        ({ s with lock_table_client := enter s.lock_table_client (c.client_id t) m none }.setClient t
          (.done op ret))
  | fail {t op m p} : s.client t = .unlock op m p → result op p = none →
      Step c M s (.client t)
        ({ s with lock_table_client := enter s.lock_table_client (c.client_id t) m none }.setClient t .failed)
  | inside {n b answer d} : M.machine.step (s.data n) b = some d → M.obs (s.data n) b = none →
      Step c M s (.data n b answer) { s with data := Function.update s.data n d }
  | clientCalls {n b answer d t op} : M.machine.step (s.data n) b = some d →
      M.obs (s.data n) b = some (.call (.inl t) op) → s.client t = .query op → c.client_id t = n →
      Step c M s (.data n b answer)
        ({ s with data := Function.update s.data n d }.setClient t (.querying op))
  | clientReturns {n b answer d t op ret} : M.machine.step (s.data n) b = some d →
      M.obs (s.data n) b = some (.ret (.inl t) ret) → s.client t = .querying op → c.client_id t = n →
      Step c M s (.data n b answer)
        ({ s with data := Function.update s.data n d }.setClient t (.done op ret))
  | serverCalls {n b answer d u op id p} : M.machine.step (s.data n) b = some d →
      M.obs (s.data n) b = some (.call (.inr u) op) → s.server u = .handle id p → c.server_id u = n →
      p.op = some op →
      Step c M s (.data n b answer)
        ({ s with data := Function.update s.data n d }.setServer u (.handling id p))
  | serverReturns {n b answer d u id p ret} : M.machine.step (s.data n) b = some d →
      M.obs (s.data n) b = some (.ret (.inr u) ret) → s.server u = .handling id p → c.server_id u = n →
      Step c M s (.data n b answer)
        ({ s with data := Function.update s.data n d }.setServer u (.respond id (response p ret answer)))
  | skip {u id} : s.server u = .poll id → id = c.server_id u →
      Step c M s (.server u) (s.setServer u (.poll (c.next id)))
  | acquire {u id} : s.server u = .poll id → id ≠ c.server_id u →
      s.lock_table_server (c.server_id u) id = none →
      Step c M s (.server u)
        ({ s with lock_table_server := enter s.lock_table_server (c.server_id u) id (some u) }.setServer u
          (.receive id))
  | nothing {u id} : s.server u = .receive id → s.requests id (c.server_id u) = [] →
      Step c M s (.server u) (s.setServer u (.unlock id))
  | receive {u id p rest} : s.server u = .receive id → s.requests id (c.server_id u) = p :: rest →
      Step c M s (.server u)
        ({ s with requests := enter s.requests id (c.server_id u) rest }.setServer u (.handle id p))
  | unexpected {u id p} : s.server u = .handle id p → p.op = none →
      Step c M s (.server u) (s.setServer u (.respond id ⟨.unset, p.key, p.value⟩))
  | respond {u id p} : s.server u = .respond id p →
      Step c M s (.server u) ({ s with
        responses := enter s.responses id (c.server_id u) (s.responses id (c.server_id u) ++ [p]) }.setServer u
          (.unlock id))
  | release {u id} : s.server u = .unlock id →
      Step c M s (.server u)
        ({ s with lock_table_server := enter s.lock_table_server (c.server_id u) id none }.setServer u
          (.poll (c.next id)))
  | finish {t op ret} : s.client t = .done op ret → Step c M s (.finish t) (s.setClient t .idle)

variable {c : Config K V T S} {M : Data D B K V (T ⊕ S)} {s s' : State D K V T S} {t : T} {u : S} {n : ℕ}
  {b : B} {answer : V} {d : D}

lemma step_client (h : stepClient c s t = some s') : Step c M s (.client t) s' := by
  rw [stepClient] at h
  cases ht : s.client t with
  | lock op m =>
    simp only [ht, Option.ite_none_right_eq_some, Option.some.injEq] at h
    obtain ⟨hlock, rfl⟩ := h
    exact .lock ht hlock
  | send op m =>
    simp only [ht, Option.some.injEq] at h
    subst h
    exact .send ht
  | deliver op m =>
    cases hp : s.responses (c.client_id t) m with
    | nil => simp [ht, hp] at h
    | cons p rest =>
      simp only [ht, hp, Option.some.injEq] at h
      subst h
      exact .deliver ht hp
  | unlock op m p =>
    cases hr : result op p with
    | none =>
      simp only [ht, hr, Option.some.injEq] at h
      subst h
      exact .fail ht hr
    | some ret =>
      simp only [ht, hr, Option.some.injEq] at h
      subst h
      exact .unlock ht hr
  | _ => simp [ht] at h

lemma step_server (h : stepServer c s u = some s') : Step c M s (.server u) s' := by
  rw [stepServer] at h
  cases hu : s.server u with
  | poll id =>
    by_cases hid : id = c.server_id u
    · simp only [hu, hid, if_true, Option.some.injEq] at h
      subst h
      exact .skip (by rw [hu, hid]) rfl
    · simp only [hu, hid, if_false, Option.ite_none_right_eq_some, Option.some.injEq] at h
      obtain ⟨hlock, rfl⟩ := h
      exact .acquire hu hid hlock
  | receive id =>
    cases hp : s.requests id (c.server_id u) with
    | nil =>
      simp only [hu, hp, Option.some.injEq] at h
      subst h
      exact .nothing hu hp
    | cons p rest =>
      simp only [hu, hp, Option.some.injEq] at h
      subst h
      exact .receive hu hp
  | handle id p =>
    simp only [hu, Option.ite_none_right_eq_some, Option.some.injEq] at h
    obtain ⟨hp, rfl⟩ := h
    exact .unexpected hu hp
  | handling id p => simp [hu] at h
  | respond id p =>
    simp only [hu, Option.some.injEq] at h
    subst h
    exact .respond hu
  | unlock id =>
    simp only [hu, Option.some.injEq] at h
    subst h
    exact .release hu

lemma step_caller {e : Event (T ⊕ S) (MapOp K V) (Option V)} (hd : M.machine.step (s.data n) b = some d)
    (he : M.obs (s.data n) b = some e)
    (h : stepCaller c { s with data := Function.update s.data n d } n answer e = some s') :
    Step c M s (.data n b answer) s' := by
  cases e with
  | call w op =>
    cases w with
    | inl t =>
      cases ht : s.client t with
      | query op' =>
        simp only [stepCaller, ht, Option.ite_none_right_eq_some, Option.some.injEq] at h
        obtain ⟨⟨hn, rfl⟩, rfl⟩ := h
        exact .clientCalls hd he ht hn
      | _ => simp [stepCaller, ht] at h
    | inr u =>
      cases hu : s.server u with
      | handle id p =>
        simp only [stepCaller, hu, Option.ite_none_right_eq_some, Option.some.injEq] at h
        obtain ⟨⟨hn, hp⟩, rfl⟩ := h
        exact .serverCalls hd he hu hn hp
      | _ => simp [stepCaller, hu] at h
  | ret w ret =>
    cases w with
    | inl t =>
      cases ht : s.client t with
      | querying op =>
        simp only [stepCaller, ht, Option.ite_none_right_eq_some, Option.some.injEq] at h
        obtain ⟨hn, rfl⟩ := h
        exact .clientReturns hd he ht hn
      | _ => simp [stepCaller, ht] at h
    | inr u =>
      cases hu : s.server u with
      | handling id p =>
        simp only [stepCaller, hu, Option.ite_none_right_eq_some, Option.some.injEq] at h
        obtain ⟨hn, rfl⟩ := h
        exact .serverReturns hd he hu hn
      | _ => simp [stepCaller, hu] at h

lemma step_cases {a : Act B K V T S} (h : step c M s a = some s') : Step c M s a s' := by
  cases a with
  | call t op =>
    cases ht : s.client t with
    | idle =>
      cases hm : c.to_id op.key with
      | none => simp [step, ht, hm] at h
      | some m =>
        simp only [step, ht, hm, Option.some.injEq] at h
        subst h
        split_ifs with heq
        · exact .query ht (by rw [hm, heq])
        · exact .remote ht hm heq
    | _ => simp [step, ht] at h
  | client t => exact step_client h
  | data n b answer =>
    cases hd : M.machine.step (s.data n) b with
    | none => simp [step, hd] at h
    | some d =>
      cases he : M.obs (s.data n) b with
      | none =>
        simp only [step, hd, he, Option.some.injEq] at h
        subst h
        exact .inside hd he
      | some e =>
        simp only [step, hd, he] at h
        exact step_caller hd he h
  | server u => exact step_server h
  | finish t =>
    cases ht : s.client t with
    | done op ret =>
      simp only [step, ht, Option.some.injEq] at h
      subst h
      exact .finish ht
    | _ => simp [step, ht] at h

end ObjectCache.Rpc.Service
