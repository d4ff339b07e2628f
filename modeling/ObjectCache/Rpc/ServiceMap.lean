import ObjectCache.Rpc.Service

/-! The service over any number of nodes is one map, whatever map of concurrent calls every node has. -/

set_option linter.unusedSectionVars false

namespace ObjectCache.Rpc.Service

open Lib

variable {D B K V T S σ : Type}

/-! ### One conversation -/

/-- What the server thread that holds the lock of a peer is doing for it. -/
inductive Task (K V S : Type) where
  | none
  | handle (u : S) (p : Proto K V)
  | handling (u : S) (p : Proto K V)
  | respond (u : S) (p : Proto K V)

/-- What is between the clients of a node and another node. -/
structure Talk (K V S : Type) where
  requests : List (Proto K V)
  responses : List (Proto K V)
  task : Task K V S

def Server.task (u : S) : Server K V → Task K V S
  | .handle _ p => .handle u p
  | .handling _ p => .handling u p
  | .respond _ p => .respond u p
  | .poll _ | .receive _ | .unlock _ => .none

def State.task (s : State D K V T S) (n m : ℕ) : Task K V S :=
  match s.lock_table_server m n with
  | some u => (s.server u).task u
  | none => .none

def State.talk (s : State D K V T S) (n m : ℕ) : Talk K V S := ⟨s.requests n m, s.responses n m, s.task n m⟩

def silent : Talk K V S := ⟨[], [], .none⟩

abbrev Local (σ K V T S : Type) := Atomic σ (T ⊕ S) (MapOp K V) (Option V)

abbrev Global (σ K V T : Type) := Atomic (ℕ → σ) T (MapOp K V) (Option V)

/-- A request from its queue to its response, by where the client's call stands. -/
inductive Exchange (c : Config K V T S) (op : MapOp K V) (d : Local σ K V T S) :
    Talk K V S → Status (MapOp K V) (Option V) → Prop
  | requested : Exchange c op d ⟨[request c op], [], .none⟩ (.called op)
  | handle {u} : Exchange c op d ⟨[], [], .handle u (request c op)⟩ (.called op)
  | handling {u st} : d.status (.inr u) = st → st = .called op ∨ (∃ ret, st = .done ret) →
      Exchange c op d ⟨[], [], .handling u (request c op)⟩ st
  | respond {u p ret} : result op p = some ret → Exchange c op d ⟨[], [], .respond u p⟩ (.done ret)
  | responded {p ret} : result op p = some ret → Exchange c op d ⟨[], [p], .none⟩ (.done ret)

/-- A client between taking the lock of a peer and giving it back. -/
def Client.Talks (m : ℕ) : Client K V → Prop
  | .send _ m' | .deliver _ m' | .unlock _ m' _ => m' = m
  | .idle | .query _ | .querying _ | .lock _ _ | .done _ _ | .failed => False

/-- A server thread that holds the lock of a peer. -/
def Server.Holds (n : ℕ) : Server K V → Prop
  | .poll _ => False
  | .receive id | .handle id _ | .handling id _ | .respond id _ | .unlock id => id = n

/-- The node of an operation. -/
def Config.place (c : Config K V T S) (op : MapOp K V) : ℕ := (c.to_id op.key).getD 0

/-- Where a client's call stands. -/
def Tells (c : Config K V T S) (s : State D K V T S) (d : ℕ → Local σ K V T S) (t : T)
    (st : Status (MapOp K V) (Option V)) : Client K V → Prop
  | .idle => st = .idle
  | .query op => st = .called op ∧ c.place op = c.client_id t
  | .querying op => st = (d (c.client_id t)).status (.inl t) ∧ c.place op = c.client_id t ∧
      (st = .called op ∨ ∃ ret, st = .done ret)
  | .lock op m => st = .called op ∧ c.place op = m
  | .send op m => st = .called op ∧ c.place op = m ∧ s.lock_table_client (c.client_id t) m = some t ∧
      s.talk (c.client_id t) m = silent
  | .deliver op m => c.place op = m ∧ s.lock_table_client (c.client_id t) m = some t ∧
      Exchange c op (d m) (s.talk (c.client_id t) m) st
  | .unlock op m p => s.lock_table_client (c.client_id t) m = some t ∧
      s.talk (c.client_id t) m = silent ∧ ∃ ret, result op p = some ret ∧ st = .done ret
  | .done _ ret => st = .done ret
  | .failed => False

/-- The abstract map at every node, and the one that they are. -/
structure Refines (c : Config K V T S) (R : D → Local σ K V T S → Prop) (s : State D K V T S)
    (d : ℕ → Local σ K V T S) (a : Global σ K V T) : Prop where
  node : ∀ n, R (s.data n) (d n)
  state : a.state = fun n => (d n).state
  client : ∀ t, Tells c s d t (a.status t) (s.client t)
  silent : ∀ n m, s.lock_table_client n m = none → s.talk n m = silent
  holder : ∀ n m t, s.lock_table_client n m = some t → c.client_id t = n ∧ (s.client t).Talks m
  server : ∀ m n u, s.lock_table_server m n = some u ↔ c.server_id u = m ∧ (s.server u).Holds n
  clientAt : ∀ n t, (d n).status (.inl t) ≠ .idle → c.client_id t = n ∧ ∃ op, s.client t = .querying op
  serverAt : ∀ n u, (d n).status (.inr u) ≠ .idle →
    c.server_id u = n ∧ ∃ id p, s.server u = .handling id p

variable [DecidableEq K] [DecidableEq V] [DecidableEq T] [DecidableEq S]
variable {c : Config K V T S} {M : Data D B K V (T ⊕ S)} {R : D → Local σ K V T S → Prop}
  {O : Object σ (MapOp K V) (Option V)} {s s' : State D K V T S} {d d' : ℕ → Local σ K V T S}
  {a : Global σ K V T} {t v : T} {u w : S} {n m id : ℕ} {x : Client K V} {y : Server K V}
  {op : MapOp K V} {st : Status (MapOp K V) (Option V)} {p : Proto K V} {ret : Option V}

lemma Tells.talks (h : Tells c s d t st x) (hx : x.Talks m) :
    s.lock_table_client (c.client_id t) m = some t := by
  cases x with
  | send op m' =>
    cases hx
    exact h.2.2.1
  | deliver op m' =>
    cases hx
    exact h.2.1
  | unlock op m' p =>
    cases hx
    exact h.1
  | _ => cases hx

namespace Exchange

variable {requests responses rest : List (Proto K V)} {task : Task K V S} {x : Local σ K V T S}

lemma of_requests (h : Exchange c op x ⟨p :: rest, responses, task⟩ st) :
    p = request c op ∧ rest = [] ∧ responses = [] ∧ task = .none ∧ st = .called op := by
  cases h
  exact ⟨rfl, rfl, rfl, rfl, rfl⟩

lemma of_handle (h : Exchange c op x ⟨requests, responses, .handle u p⟩ st) :
    p = request c op ∧ requests = [] ∧ responses = [] ∧ st = .called op := by
  cases h
  exact ⟨rfl, rfl, rfl, rfl⟩

lemma of_handling (h : Exchange c op x ⟨requests, responses, .handling u p⟩ st) :
    p = request c op ∧ requests = [] ∧ responses = [] ∧ x.status (.inr u) = st ∧
      (st = .called op ∨ ∃ ret, st = .done ret) := by
  cases h with
  | handling hst hcase => exact ⟨rfl, rfl, rfl, hst, hcase⟩

lemma of_respond (h : Exchange c op x ⟨requests, responses, .respond u p⟩ st) :
    requests = [] ∧ responses = [] ∧ ∃ ret, result op p = some ret ∧ st = .done ret := by
  cases h with
  | respond hr => exact ⟨rfl, rfl, _, hr, rfl⟩

lemma of_responses (h : Exchange c op x ⟨requests, p :: rest, task⟩ st) :
    requests = [] ∧ rest = [] ∧ task = .none ∧ ∃ ret, result op p = some ret ∧ st = .done ret := by
  cases h with
  | responded hr => exact ⟨rfl, rfl, rfl, _, hr, rfl⟩

end Exchange

/-- What the others do does not matter to a client. -/
lemma Tells.frame (h : Tells c s d t st x)
    (hd : (d' (c.client_id t)).status (.inl t) = (d (c.client_id t)).status (.inl t))
    (hlock : ∀ m, x.Talks m → s'.lock_table_client (c.client_id t) m = s.lock_table_client (c.client_id t) m)
    (htalk : ∀ m, x.Talks m → s'.talk (c.client_id t) m = s.talk (c.client_id t) m)
    (hserver : ∀ m u p, x.Talks m → s.task (c.client_id t) m = .handling u p →
      (d' m).status (.inr u) = (d m).status (.inr u)) : Tells c s' d' t st x := by
  cases x with
  | querying op =>
    rw [Tells, hd]
    exact h
  | send op m =>
    rw [Tells, hlock m rfl, htalk m rfl]
    exact h
  | deliver op m =>
    rw [Tells, hlock m rfl, htalk m rfl]
    obtain ⟨hplace, hl, he⟩ := h
    refine ⟨hplace, hl, ?_⟩
    cases hk : s.talk (c.client_id t) m with
    | mk requests responses task =>
      have htask : s.task (c.client_id t) m = task := congrArg Talk.task hk
      rw [hk] at he
      cases he with
      | requested => exact .requested
      | handle => exact .handle
      | handling hst hcase => exact .handling (by rw [hserver m _ _ rfl htask, hst]) hcase
      | respond hr => exact .respond hr
      | responded hr => exact .responded hr
  | unlock op m p =>
    rw [Tells, hlock m rfl, htalk m rfl]
    exact h
  | idle | query _ | lock _ _ | done _ _ | failed => exact h

/-! ### Frames -/

lemma client_self : (s.setClient t x).client t = x := Function.update_self ..

lemma client_other (h : v ≠ t) : (s.setClient t x).client v = s.client v := Function.update_of_ne h ..

lemma server_self : (s.setServer u y).server u = y := Function.update_self ..

lemma server_other (h : w ≠ u) : (s.setServer u y).server w = s.server w := Function.update_of_ne h ..

lemma enter_self {β : Type} {f : ℕ → ℕ → β} {z : β} : enter f n m z n m = z := by
  rw [enter, Function.update_self, Function.update_self]

lemma enter_other {β : Type} {f : ℕ → ℕ → β} {z : β} {n' m' : ℕ} (h : ¬ (n' = n ∧ m' = m)) :
    enter f n m z n' m' = f n' m' := by
  rw [enter]
  by_cases hn : n' = n
  · subst hn
    rw [Function.update_self]
    exact Function.update_of_ne (fun hm => h ⟨rfl, hm⟩) ..
  · rw [Function.update_of_ne hn]

lemma enter_same {β : Type} (f : ℕ → ℕ → β) : enter f n m (f n m) = f := by
  rw [enter, Function.update_eq_self, Function.update_eq_self]

section Conversation

variable (h : Refines c R s d a)

include h

/-- Whoever else talks to a peer, does so from another node or to another peer. -/
lemma Refines.apart (ht : s.lock_table_client (c.client_id t) m = some t) (hv : v ≠ t)
    (hx : (s.client v).Talks n) : ¬ (c.client_id v = c.client_id t ∧ n = m) := by
  rintro ⟨hid, rfl⟩
  have hlock := (h.client v).talks hx
  rw [hid, ht] at hlock
  cases hlock
  exact hv rfl

/-- A node that is not silent has a client that waits for its peer. -/
lemma Refines.waits (hs : s.talk n m ≠ Service.silent) : ∃ t op, c.client_id t = n ∧ s.client t = .deliver op m ∧
    c.place op = m ∧ s.lock_table_client n m = some t ∧ Exchange c op (d m) (s.talk n m) (a.status t) := by
  obtain ⟨t, hlock⟩ := Option.ne_none_iff_exists'.mp fun hnone => hs (h.silent n m hnone)
  obtain ⟨rfl, hx⟩ := h.holder n m t hlock
  have ht := h.client t
  cases hpc : s.client t with
  | deliver op m' =>
    rw [hpc] at hx ht
    cases hx
    exact ⟨t, op, rfl, hpc, ht.1, hlock, ht.2.2⟩
  | send op m' =>
    rw [hpc] at hx ht
    cases hx
    exact absurd ht.2.2.2 hs
  | unlock op m' p =>
    rw [hpc] at hx ht
    cases hx
    exact absurd ht.2.1 hs
  | _ =>
    rw [hpc] at hx
    cases hx

/-- The task of a server thread. -/
lemma Refines.task_eq (hy : (s.server u).Holds n) : s.task n (c.server_id u) = (s.server u).task u := by
  rw [State.task, (h.server _ n u).mpr ⟨rfl, hy⟩]

/-- A server thread at work on a request has a client that waits for it. -/
lemma Refines.asked (hy : (s.server u).Holds n) (hwork : (s.server u).task u ≠ .none) :
    ∃ t op, c.client_id t = n ∧ s.client t = .deliver op (c.server_id u) ∧ c.place op = c.server_id u ∧
      s.lock_table_client n (c.server_id u) = some t ∧
        Exchange c op (d (c.server_id u)) (s.talk n (c.server_id u)) (a.status t) := by
  apply h.waits
  intro hs
  exact hwork ((h.task_eq hy).symm.trans (congrArg Talk.task hs))

end Conversation

/-! ### Steps of the clients -/

lemma setStatus_same (ht : a.status t = st) : a.setStatus t st = a := by
  rw [← ht, Atomic.setStatus, Function.update_eq_self]

lemma talk_eq (hreq : s'.requests n m = s.requests n m) (hres : s'.responses n m = s.responses n m)
    (htask : s'.task n m = s.task n m) : s'.talk n m = s.talk n m := by
  rw [State.talk, State.talk, hreq, hres, htask]

/-- The calls of the internal maps after a step of one thread. -/
structure Serves (R : D → Local σ K V T S → Prop) (s' : State D K V T S) (d d' : ℕ → Local σ K V T S)
    (z : T ⊕ S) : Prop where
  node : ∀ n, R (s'.data n) (d' n)
  state : ∀ n, (d' n).state = (d n).state
  status : ∀ n w, w ≠ z → (d' n).status w = (d n).status w

/-- A step of a client. -/
structure ClientStep (c : Config K V T S) (s s' : State D K V T S) (d' : ℕ → Local σ K V T S) (t : T)
    (x : Client K V) (st : Status (MapOp K V) (Option V)) : Prop where
  server : s'.server = s.server
  lock_table_server : s'.lock_table_server = s.lock_table_server
  client : s'.client = Function.update s.client t x
  calls : ∀ n, (d' n).status (.inl t) ≠ .idle → c.client_id t = n ∧ ∃ op, x = .querying op
  tells : Tells c s' d' t st x
  others : ∀ v, v ≠ t → ∀ m, (s.client v).Talks m →
    s'.lock_table_client (c.client_id v) m = s.lock_table_client (c.client_id v) m ∧
      s'.requests (c.client_id v) m = s.requests (c.client_id v) m ∧
        s'.responses (c.client_id v) m = s.responses (c.client_id v) m
  silent : ∀ n m, s'.lock_table_client n m = none → s'.talk n m = Service.silent
  holder : ∀ n m v, s'.lock_table_client n m = some v →
    v = t ∧ c.client_id t = n ∧ x.Talks m ∨ v ≠ t ∧ s.lock_table_client n m = some v

lemma Refines.client_step (h : Refines c R s d a) (hd : Serves R s' d d' (.inl t))
    (hs : ClientStep c s s' d' t x st) : Refines c R s' d' (a.setStatus t st) := by
  have hother : ∀ v, v ≠ t → s'.client v = s.client v := fun v hv => by
    rw [hs.client]
    exact Function.update_of_ne hv ..
  have htask : ∀ n m, s'.task n m = s.task n m := fun n m => by
    rw [State.task, State.task, hs.server, hs.lock_table_server]
  refine ⟨hd.node, ?_, fun v => ?_, hs.silent, fun n m v hv => ?_, fun m n u => ?_, fun n v hv => ?_,
    fun n u hu => ?_⟩
  · rw [Atomic.setStatus, h.state]
    exact funext fun n => (hd.state n).symm
  · by_cases hv : v = t
    · subst hv
      rw [Atomic.setStatus_self, hs.client, Function.update_self]
      exact hs.tells
    · rw [Atomic.setStatus_other hv, hother v hv]
      apply (h.client v).frame
      · exact hd.status _ _ fun heq => hv (Sum.inl.inj heq)
      · exact fun m hm => (hs.others v hv m hm).1
      · exact fun m hm => talk_eq (hs.others v hv m hm).2.1 (hs.others v hv m hm).2.2 (htask _ m)
      · exact fun m u p hm hp => hd.status _ _ (by simp)
  · rcases hs.holder n m v hv with ⟨rfl, hid, hx⟩ | ⟨hvt, hold⟩
    · rw [hs.client, Function.update_self]
      exact ⟨hid, hx⟩
    · rw [hother v hvt]
      exact h.holder n m v hold
  · rw [hs.lock_table_server, hs.server]
    exact h.server m n u
  · by_cases hvt : v = t
    · subst hvt
      rw [hs.client, Function.update_self]
      exact hs.calls n hv
    · rw [hd.status n _ fun heq => hvt (Sum.inl.inj heq)] at hv
      rw [hother v hvt]
      exact h.clientAt n v hv
  · rw [hd.status n _ (by simp)] at hu
    rw [hs.server]
    exact h.serverAt n u hu

/-- A step that leaves the internal maps alone. -/
lemma Refines.serves (h : Refines c R s d a) (hdata : s'.data = s.data) (z : T ⊕ S) : Serves R s' d d z where
  node n := by
    rw [hdata]
    exact h.node n
  state n := rfl
  status n w hw := rfl

lemma Refines.client_quiet (h : Refines c R s d a) (hdata : s'.data = s.data)
    (hs : ClientStep c s s' d t x st) : Refines c R s' d (a.setStatus t st) :=
  h.client_step (h.serves hdata _) hs

lemma Refines.not_calls (h : Refines c R s d a) (ht : ∀ op, s.client t ≠ .querying op) {P : Prop}
    (hn : (d n).status (.inl t) ≠ .idle) : P := by
  obtain ⟨-, op, hop⟩ := h.clientAt n t hn
  exact absurd hop (ht op)

section Clients

variable (h : Refines c R s d a)

include h

lemma Refines.client_put (ht : ∀ op, s.client t ≠ .querying op) (hn : ∀ m, ¬ (s.client t).Talks m)
    (hx : Tells c (s.setClient t x) d t st x) :
    Refines c R (s.setClient t x) d (a.setStatus t st) := by
  apply h.client_quiet (x := x)
  · rfl
  refine ⟨rfl, rfl, rfl, fun n hn => h.not_calls ht hn, hx, fun v hv m hm => ⟨rfl, rfl, rfl⟩, h.silent,
    fun n m v hv => ?_⟩
  right
  refine ⟨?_, hv⟩
  rintro rfl
  exact hn m (h.holder n m v hv).2

lemma Refines.lock (ht : s.client t = .lock op m) (hl : s.lock_table_client (c.client_id t) m = none) :
    Refines c R ({ s with
      lock_table_client := enter s.lock_table_client (c.client_id t) m (some t) }.setClient t (.send op m)) d a := by
  have hst := h.client t
  rw [ht] at hst
  rw [← setStatus_same hst.1]
  apply h.client_quiet (x := .send op m)
  · rfl
  have hpair : ∀ n' m', ¬ (n' = c.client_id t ∧ m' = m) →
      enter s.lock_table_client (c.client_id t) m (some t) n' m' = s.lock_table_client n' m' :=
    fun n' m' hne => enter_other hne
  refine ⟨rfl, rfl, rfl, fun n hn => h.not_calls (fun op' => by rw [ht]; simp) hn, ?_,
    fun v hv m' hm' => ⟨?_, rfl, rfl⟩, ?_, ?_⟩
  · exact ⟨rfl, hst.2, enter_self, h.silent _ _ hl⟩
  · apply hpair
    rintro ⟨hid, rfl⟩
    have hv' := (h.client v).talks hm'
    rw [hid, hl] at hv'
    cases hv'
  · intro n' m' hnone
    change enter s.lock_table_client (c.client_id t) m (some t) n' m' = none at hnone
    by_cases hat : n' = c.client_id t ∧ m' = m
    · obtain ⟨rfl, rfl⟩ := hat
      rw [enter_self] at hnone
      cases hnone
    · rw [hpair n' m' hat] at hnone
      exact h.silent n' m' hnone
  · intro n' m' v hv
    change enter s.lock_table_client (c.client_id t) m (some t) n' m' = some v at hv
    by_cases hat : n' = c.client_id t ∧ m' = m
    · obtain ⟨rfl, rfl⟩ := hat
      rw [enter_self] at hv
      cases hv
      exact .inl ⟨rfl, rfl, rfl⟩
    · rw [hpair n' m' hat] at hv
      refine .inr ⟨?_, hv⟩
      rintro rfl
      have hx := (h.holder n' m' v hv).2
      rw [ht] at hx
      exact hx

/-- A step on the queues of the client's own conversation. -/
lemma Refines.talk_step (hl : s.lock_table_client (c.client_id t) m = some t) (hm : x.Talks m)
    (ht : ∀ op, s.client t ≠ .querying op) (requests responses : List (Proto K V)) (hst : a.status t = st)
    (hx : Tells c ({ s with
      requests := enter s.requests (c.client_id t) m requests
      responses := enter s.responses (c.client_id t) m responses }.setClient t x) d t st x) :
    Refines c R ({ s with
      requests := enter s.requests (c.client_id t) m requests
      responses := enter s.responses (c.client_id t) m responses }.setClient t x) d a := by
  rw [← setStatus_same hst]
  apply h.client_quiet (x := x)
  · rfl
  refine ⟨rfl, rfl, rfl, fun n hn => h.not_calls ht hn, hx, fun v hv m' hm' => ⟨rfl, ?_, ?_⟩,
    fun n' m' hnone => ?_, ?_⟩
  · exact enter_other (h.apart hl hv hm')
  · exact enter_other (h.apart hl hv hm')
  · have hne : ¬ (n' = c.client_id t ∧ m' = m) := by
      rintro ⟨rfl, rfl⟩
      change s.lock_table_client _ _ = none at hnone
      rw [hl] at hnone
      cases hnone
    rw [← h.silent n' m' hnone]
    exact talk_eq (enter_other hne) (enter_other hne) rfl
  · intro n' m' v hv
    by_cases hvt : v = t
    · subst hvt
      have hheld := h.holder n' m' v hv
      have hsame : m' = m := by
        by_contra hne
        have hold := hheld.2
        have hlock := (h.holder _ _ v hl).2
        cases hpc : s.client v with
        | send op m₀ | deliver op m₀ | unlock op m₀ p =>
          rw [hpc] at hold hlock
          exact hne (hold.symm.trans hlock)
        | _ =>
          rw [hpc] at hold
          cases hold
      subst hsame
      exact .inl ⟨rfl, hheld.1, hm⟩
    · exact .inr ⟨hvt, hv⟩

lemma Refines.send (ht : s.client t = .send op m) :
    Refines c R ({ s with
      requests := enter s.requests (c.client_id t) m
        (s.requests (c.client_id t) m ++ [request c op]) }.setClient t (.deliver op m)) d a := by
  have hst := h.client t
  rw [ht] at hst
  obtain ⟨hcalled, hplace, hlock, hsilent⟩ := hst
  have hreq : s.requests (c.client_id t) m = [] := congrArg Talk.requests hsilent
  have hres : s.responses (c.client_id t) m = [] := congrArg Talk.responses hsilent
  have htask : s.task (c.client_id t) m = .none := congrArg Talk.task hsilent
  have hgo := h.talk_step (x := .deliver op m) hlock rfl (fun op' => by rw [ht]; simp)
    (s.requests (c.client_id t) m ++ [request c op]) (s.responses (c.client_id t) m) hcalled
  rw [enter_same] at hgo
  apply hgo
  refine ⟨hplace, hlock, ?_⟩
  have htalk : (State.talk ({ s with
      requests := enter s.requests (c.client_id t) m
        (s.requests (c.client_id t) m ++ [request c op]) }.setClient t (.deliver op m)) (c.client_id t) m) =
      ⟨[request c op], [], .none⟩ := by
    change Talk.mk (enter s.requests (c.client_id t) m (s.requests (c.client_id t) m ++ [request c op])
      (c.client_id t) m) (s.responses (c.client_id t) m) (s.task (c.client_id t) m) = _
    rw [enter_self, hreq, hres, htask]
    rfl
  rw [htalk]
  exact .requested

lemma Refines.deliver {rest : List (Proto K V)} (ht : s.client t = .deliver op m)
    (hp : s.responses (c.client_id t) m = p :: rest) :
    Refines c R ({ s with responses := enter s.responses (c.client_id t) m rest }.setClient t
      (.unlock op m p)) d a := by
  have hst := h.client t
  rw [ht] at hst
  obtain ⟨hplace, hlock, hexchange⟩ := hst
  have hgo := h.talk_step (x := .unlock op m p) hlock rfl (fun op' => by rw [ht]; simp)
    (s.requests (c.client_id t) m) rest rfl
  rw [enter_same] at hgo
  apply hgo
  rw [State.talk, hp] at hexchange
  obtain ⟨hreq, rfl, htask, ret, hr, hdone⟩ := hexchange.of_responses
  refine ⟨hlock, ?_, ret, hr, hdone⟩
  change Talk.mk (s.requests (c.client_id t) m) (enter s.responses (c.client_id t) m [] (c.client_id t) m)
    (s.task (c.client_id t) m) = _
  rw [hreq, htask, enter_self]
  rfl

lemma Refines.unlock (ht : s.client t = .unlock op m p) (hret : result op p = some ret) :
    Refines c R ({ s with
      lock_table_client := enter s.lock_table_client (c.client_id t) m none }.setClient t (.done op ret)) d a := by
  have hst := h.client t
  rw [ht] at hst
  obtain ⟨hlock, hsilent, ret', hret', hdone⟩ := hst
  rw [hret] at hret'
  cases hret'
  rw [← setStatus_same hdone]
  apply h.client_quiet (x := .done op ret)
  · rfl
  have hpair : ∀ n' m', ¬ (n' = c.client_id t ∧ m' = m) →
      enter s.lock_table_client (c.client_id t) m none n' m' = s.lock_table_client n' m' :=
    fun n' m' hne => enter_other hne
  refine ⟨rfl, rfl, rfl, fun n hn => h.not_calls (fun op' => by rw [ht]; simp) hn, rfl,
    fun v hv m' hm' => ⟨?_, rfl, rfl⟩, ?_, ?_⟩
  · exact hpair _ _ (h.apart hlock hv hm')
  · intro n' m' hnone
    change enter s.lock_table_client (c.client_id t) m none n' m' = none at hnone
    by_cases hat : n' = c.client_id t ∧ m' = m
    · obtain ⟨rfl, rfl⟩ := hat
      exact hsilent
    · rw [hpair n' m' hat] at hnone
      exact h.silent n' m' hnone
  · intro n' m' v hv
    change enter s.lock_table_client (c.client_id t) m none n' m' = some v at hv
    by_cases hat : n' = c.client_id t ∧ m' = m
    · obtain ⟨rfl, rfl⟩ := hat
      rw [enter_self] at hv
      cases hv
    · rw [hpair n' m' hat] at hv
      refine .inr ⟨?_, hv⟩
      rintro rfl
      obtain ⟨hid, hx⟩ := h.holder n' m' v hv
      rw [ht] at hx
      exact hat ⟨hid.symm, hx.symm⟩

end Clients

/-! ### Steps of the servers -/

/-- A step of a server thread, for the peer whose lock it holds or takes. -/
structure ServerStep (c : Config K V T S) (s s' : State D K V T S) (d d' : ℕ → Local σ K V T S) (u : S)
    (id : ℕ) (y : Server K V) : Prop where
  client : s'.client = s.client
  lock_table_client : s'.lock_table_client = s.lock_table_client
  server : s'.server = Function.update s.server u y
  calls : ∀ n, (d' n).status (.inr u) ≠ .idle → c.server_id u = n ∧ ∃ id p, y = .handling id p
  held : ∀ n, (s.server u).Holds n → n = id
  holds : ∀ n, y.Holds n → n = id
  table : ∀ w, s'.lock_table_server (c.server_id u) id = some w ↔
    c.server_id w = c.server_id u ∧ (s'.server w).Holds id
  others : ∀ n m, ¬ (n = id ∧ m = c.server_id u) → s'.lock_table_server m n = s.lock_table_server m n ∧
    s'.requests n m = s.requests n m ∧ s'.responses n m = s.responses n m
  silent : s.talk id (c.server_id u) = Service.silent → s'.talk id (c.server_id u) = Service.silent
  exchange : ∀ {op st}, Exchange c op (d (c.server_id u)) (s.talk id (c.server_id u)) st →
    Exchange c op (d' (c.server_id u)) (s'.talk id (c.server_id u)) st

lemma task_handling (htask : s.task n m = .handling u p) :
    s.lock_table_server m n = some u ∧ ∃ id, s.server u = .handling id p := by
  rw [State.task] at htask
  cases hl : s.lock_table_server m n with
  | none =>
    rw [hl] at htask
    cases htask
  | some w =>
    simp only [hl] at htask
    cases hw : s.server w with
    | handling id p' =>
      rw [hw] at htask
      cases htask
      exact ⟨rfl, id, hw⟩
    | _ =>
      rw [hw] at htask
      cases htask

lemma Refines.server_step (h : Refines c R s d a) (hd : Serves R s' d d' (.inr u))
    (hs : ServerStep c s s' d d' u id y) : Refines c R s' d' a := by
  have hother : ∀ w, w ≠ u → s'.server w = s.server w := fun w hw => by
    rw [hs.server]
    exact Function.update_of_ne hw ..
  have hself : s'.server u = y := by rw [hs.server, Function.update_self]
  have htalk : ∀ n m, ¬ (n = id ∧ m = c.server_id u) → s'.talk n m = s.talk n m := by
    intro n m hne
    obtain ⟨hlock, hreq, hres⟩ := hs.others n m hne
    apply talk_eq hreq hres
    rw [State.task, State.task, hlock]
    cases hl : s.lock_table_server m n with
    | none => rfl
    | some w =>
      obtain ⟨hid, hhold⟩ := (h.server m n w).mp hl
      have hw : w ≠ u := by
        rintro rfl
        exact hne ⟨hs.held n hhold, hid.symm⟩
      simp only [hother w hw]
  have hclient : ∀ n t, (d' n).status (.inl t) = (d n).status (.inl t) := fun n t => hd.status n _ (by simp)
  refine ⟨hd.node, ?_, fun t => ?_, fun n m hnone => ?_, fun n m t ht => ?_, fun m n w => ?_, fun n t ht => ?_,
    fun n w hw => ?_⟩
  · rw [h.state]
    exact funext fun n => (hd.state n).symm
  · rw [hs.client]
    have ht := h.client t
    by_cases hat : ∃ m, (s.client t).Talks m ∧ c.client_id t = id ∧ m = c.server_id u
    · obtain ⟨m, hm, rfl, rfl⟩ := hat
      cases hpc : s.client t with
      | deliver op m =>
        rw [hpc] at ht hm
        cases hm
        exact ⟨ht.1, by rw [hs.lock_table_client]; exact ht.2.1, hs.exchange ht.2.2⟩
      | send op m =>
        rw [hpc] at ht hm
        cases hm
        exact ⟨ht.1, ht.2.1, by rw [hs.lock_table_client]; exact ht.2.2.1, hs.silent ht.2.2.2⟩
      | unlock op m p =>
        rw [hpc] at ht hm
        cases hm
        exact ⟨by rw [hs.lock_table_client]; exact ht.1, hs.silent ht.2.1, ht.2.2⟩
      | _ =>
        rw [hpc] at hm
        cases hm
    · have hne : ∀ m, (s.client t).Talks m → ¬ (c.client_id t = id ∧ m = c.server_id u) :=
        fun m hm heq => hat ⟨m, hm, heq⟩
      apply ht.frame (hclient _ t)
      · intro m _
        rw [hs.lock_table_client]
      · exact fun m hm => htalk _ m (hne m hm)
      · intro m w p hm htask
        obtain ⟨hl, -⟩ := task_handling htask
        obtain ⟨hid, hhold⟩ := (h.server _ _ w).mp hl
        apply hd.status
        rintro heq
        cases heq
        exact hne m hm ⟨hs.held _ hhold, hid.symm⟩
  · rw [hs.lock_table_client] at hnone
    by_cases hat : n = id ∧ m = c.server_id u
    · obtain ⟨rfl, rfl⟩ := hat
      exact hs.silent (h.silent _ _ hnone)
    · rw [htalk n m hat]
      exact h.silent n m hnone
  · rw [hs.lock_table_client] at ht
    rw [hs.client]
    exact h.holder n m t ht
  · by_cases hat : n = id ∧ m = c.server_id u
    · obtain ⟨rfl, rfl⟩ := hat
      exact hs.table w
    · rw [(hs.others n m hat).1, h.server m n w]
      by_cases hw : w = u
      · subst hw
        rw [hself]
        refine iff_of_false ?_ ?_
        · rintro ⟨hid, hhold⟩
          exact hat ⟨hs.held n hhold, hid.symm⟩
        · rintro ⟨hid, hhold⟩
          exact hat ⟨hs.holds n hhold, hid.symm⟩
      · rw [hother w hw]
  · rw [hclient] at ht
    rw [hs.client]
    exact h.clientAt n t ht
  · by_cases hwu : w = u
    · subst hwu
      rw [hself]
      exact hs.calls n hw
    · rw [hd.status n _ fun heq => hwu (Sum.inr.inj heq)] at hw
      rw [hother w hwu]
      exact h.serverAt n w hw

lemma Refines.not_serves (h : Refines c R s d a) (hu : ∀ id p, s.server u ≠ .handling id p) {P : Prop}
    (hn : (d n).status (.inr u) ≠ .idle) : P := by
  obtain ⟨-, id, p, hp⟩ := h.serverAt n u hn
  exact absurd hp (hu id p)

lemma Refines.server_quiet (h : Refines c R s d a) (u : S) (id : ℕ) (hdata : s'.data = s.data)
    (hs : ServerStep c s s' d d u id y) : Refines c R s' d a :=
  h.server_step (h.serves hdata _) hs

section Servers

variable (h : Refines c R s d a)

include h

/-- A step that keeps the lock. -/
lemma Refines.table_keep (hs : s'.server = Function.update s.server u y)
    (hl : s'.lock_table_server = s.lock_table_server) (hy : (s.server u).Holds id ↔ y.Holds id) (w : S) :
    s'.lock_table_server (c.server_id u) id = some w ↔
      c.server_id w = c.server_id u ∧ (s'.server w).Holds id := by
  rw [hl, h.server, hs]
  by_cases hw : w = u
  · subst hw
    rw [Function.update_self, hy]
  · rw [Function.update_of_ne hw]

lemma Refines.skip (hu : s.server u = .poll id) {id' : ℕ} : Refines c R (s.setServer u (.poll id')) d a := by
  have hnot : ∀ n, ¬ (s.server u).Holds n := fun n hn => by
    rw [hu] at hn
    exact hn
  have htask : ∀ n m, (s.setServer u (.poll id')).task n m = s.task n m := by
    intro n m
    rw [State.task, State.task]
    change (match s.lock_table_server m n with
      | some w => ((s.setServer u (.poll id')).server w).task w
      | none => .none) = _
    cases hl : s.lock_table_server m n with
    | none => rfl
    | some w =>
      have hw : w ≠ u := by
        rintro rfl
        exact hnot n ((h.server m n w).mp hl).2
      simp only [server_other hw]
  have htalk : ∀ n m, (s.setServer u (.poll id')).talk n m = s.talk n m :=
    fun n m => talk_eq rfl rfl (htask n m)
  apply h.server_quiet u id (y := .poll id')
  · rfl
  refine ⟨rfl, rfl, rfl, fun n hn => h.not_serves (fun i p => by rw [hu]; simp) hn, fun n hn => absurd hn (hnot n), fun n hn => hn.elim,
    h.table_keep rfl rfl ?_, fun n m _ => ⟨rfl, rfl, rfl⟩, fun hs => ?_, fun he => ?_⟩
  · rw [hu]
    exact Iff.rfl
  · rw [htalk]
    exact hs
  · rw [htalk]
    exact he

lemma Refines.acquire (hu : s.server u = .poll id) (hl : s.lock_table_server (c.server_id u) id = none) :
    Refines c R ({ s with
      lock_table_server := enter s.lock_table_server (c.server_id u) id (some u) }.setServer u (.receive id)) d
        a := by
  have htask : s.task id (c.server_id u) = .none := by rw [State.task, hl]
  have htalk : State.talk ({ s with
      lock_table_server := enter s.lock_table_server (c.server_id u) id (some u) }.setServer u (.receive id)) id
        (c.server_id u) = s.talk id (c.server_id u) := by
    apply talk_eq
    · rfl
    · rfl
    rw [htask, State.task]
    change (match enter s.lock_table_server (c.server_id u) id (some u) (c.server_id u) id with
      | some w => (Function.update s.server u (.receive id) w).task w
      | none => .none) = Task.none
    rw [enter_self]
    simp only [Function.update_self]
    rfl
  apply h.server_quiet u id (y := .receive id)
  · rfl
  refine ⟨rfl, rfl, rfl, fun n hn => h.not_serves (fun i p => by rw [hu]; simp) hn, fun n hn => ?_, fun n hn => hn.symm, fun w => ?_,
    fun n m hne => ⟨enter_other fun hat => hne hat.symm, rfl, rfl⟩, fun hs => ?_, fun he => ?_⟩
  · rw [hu] at hn
    cases hn
  · change enter s.lock_table_server (c.server_id u) id (some u) (c.server_id u) id = some w ↔
      c.server_id w = c.server_id u ∧ (Function.update s.server u (.receive id) w).Holds id
    rw [enter_self]
    by_cases hw : w = u
    · subst hw
      rw [Function.update_self]
      exact iff_of_true rfl ⟨rfl, rfl⟩
    · rw [Function.update_of_ne hw]
      refine iff_of_false (fun heq => hw (Option.some.inj heq).symm) fun hheld => ?_
      rw [(h.server _ id w).mpr hheld] at hl
      cases hl
  · rw [htalk]
    exact hs
  · rw [htalk]
    exact he

lemma Refines.release (hu : s.server u = .unlock id) {id' : ℕ} :
    Refines c R ({ s with
      lock_table_server := enter s.lock_table_server (c.server_id u) id none }.setServer u (.poll id')) d a := by
  have hholds : (s.server u).Holds id := by
    rw [hu]
    rfl
  have htask : s.task id (c.server_id u) = .none := by
    rw [h.task_eq hholds, hu]
    rfl
  have htalk : State.talk ({ s with
      lock_table_server := enter s.lock_table_server (c.server_id u) id none }.setServer u (.poll id')) id
        (c.server_id u) = s.talk id (c.server_id u) := by
    apply talk_eq
    · rfl
    · rfl
    rw [htask, State.task]
    change (match enter s.lock_table_server (c.server_id u) id none (c.server_id u) id with
      | some w => (Function.update s.server u (.poll id') w).task w
      | none => .none) = Task.none
    rw [enter_self]
  apply h.server_quiet u id (y := .poll id')
  · rfl
  refine ⟨rfl, rfl, rfl, fun n hn => h.not_serves (fun i p => by rw [hu]; simp) hn, fun n hn => ?_, fun n hn => hn.elim, fun w => ?_,
    fun n m hne => ⟨enter_other fun hat => hne hat.symm, rfl, rfl⟩, fun hs => ?_, fun he => ?_⟩
  · rw [hu] at hn
    exact hn.symm
  · change enter s.lock_table_server (c.server_id u) id none (c.server_id u) id = some w ↔
      c.server_id w = c.server_id u ∧ (Function.update s.server u (.poll id') w).Holds id
    rw [enter_self]
    refine iff_of_false (by simp) ?_
    rintro ⟨hid, hheld⟩
    by_cases hw : w = u
    · subst hw
      rw [Function.update_self] at hheld
      exact hheld
    · rw [Function.update_of_ne hw] at hheld
      have hmine := (h.server _ id u).mpr ⟨rfl, hholds⟩
      rw [(h.server _ id w).mpr ⟨hid, hheld⟩] at hmine
      cases hmine
      exact hw rfl
  · rw [htalk]
    exact hs
  · rw [htalk]
    exact he

/-- A step of a server thread that keeps its lock, on the queues of its conversation. -/
lemma Refines.serve (hu : (s.server u).Holds id) (hy : y.Holds id) (requests responses : List (Proto K V))
    (hheld : ∀ n, (s.server u).Holds n → n = id) (hholds : ∀ n, y.Holds n → n = id)
    (hbefore : ∀ id p, s.server u ≠ .handling id p)
    (hsilent : s.talk id (c.server_id u) = Service.silent → (⟨requests, responses, y.task u⟩ : Talk K V S) =
      Service.silent)
    (hexchange : ∀ {op st}, Exchange c op (d (c.server_id u)) (s.talk id (c.server_id u)) st →
      Exchange c op (d (c.server_id u)) ⟨requests, responses, y.task u⟩ st) :
    Refines c R ({ s with
      requests := enter s.requests id (c.server_id u) requests
      responses := enter s.responses id (c.server_id u) responses }.setServer u y) d a := by
  have htalk : State.talk ({ s with
      requests := enter s.requests id (c.server_id u) requests
      responses := enter s.responses id (c.server_id u) responses }.setServer u y) id (c.server_id u) =
        ⟨requests, responses, y.task u⟩ := by
    have hlock := (h.server _ id u).mpr ⟨rfl, hu⟩
    rw [State.talk, State.task]
    change Talk.mk (enter s.requests id (c.server_id u) requests id (c.server_id u))
      (enter s.responses id (c.server_id u) responses id (c.server_id u))
      (match s.lock_table_server (c.server_id u) id with
        | some w => (Function.update s.server u y w).task w
        | none => .none) = _
    rw [hlock, enter_self, enter_self]
    simp only [Function.update_self]
  apply h.server_quiet u id (y := y)
  · rfl
  refine ⟨rfl, rfl, rfl, fun n hn => h.not_serves hbefore hn, hheld, hholds, h.table_keep rfl rfl (iff_of_true hu hy),
    fun n m hne => ⟨rfl, enter_other hne, enter_other hne⟩, fun hs => ?_, fun he => ?_⟩
  · rw [htalk]
    exact hsilent hs
  · rw [htalk]
    exact hexchange he

/-- Nothing but the holder's own step is seen in a conversation. -/
lemma Refines.talk_holder (hu : (s.server u).Holds id) : s.talk id (c.server_id u) =
    ⟨s.requests id (c.server_id u), s.responses id (c.server_id u), (s.server u).task u⟩ := by
  rw [State.talk, h.task_eq hu]

lemma Refines.nothing (hu : s.server u = .receive id) : Refines c R (s.setServer u (.unlock id)) d a := by
  have hhold : (s.server u).Holds id := by
    rw [hu]
    rfl
  have htalk := h.talk_holder hhold
  have hgo := h.serve (y := .unlock id) hhold rfl (s.requests id (c.server_id u)) (s.responses id (c.server_id u))
    (fun n hn => by rw [hu] at hn; exact hn.symm) (fun n hn => hn.symm) (fun i p => by rw [hu]; simp)
  rw [enter_same, enter_same] at hgo
  rw [hu] at htalk
  apply hgo
  · intro hs
    rw [htalk] at hs
    exact hs
  · intro op st he
    rw [htalk] at he
    exact he

lemma Refines.receive {rest : List (Proto K V)} (hu : s.server u = .receive id)
    (hp : s.requests id (c.server_id u) = p :: rest) :
    Refines c R ({ s with requests := enter s.requests id (c.server_id u) rest }.setServer u (.handle id p)) d
      a := by
  have hhold : (s.server u).Holds id := by
    rw [hu]
    rfl
  have htalk := h.talk_holder hhold
  rw [hp, hu] at htalk
  have hgo := h.serve (y := .handle id p) hhold rfl rest (s.responses id (c.server_id u))
    (fun n hn => by rw [hu] at hn; exact hn.symm) (fun n hn => hn.symm) (fun i p => by rw [hu]; simp)
  rw [enter_same] at hgo
  apply hgo
  · intro hs
    rw [htalk] at hs
    have hnil : p :: rest = [] := congrArg Talk.requests hs
    cases hnil
  · intro op st he
    rw [htalk] at he
    obtain ⟨rfl, rfl, hres, -, rfl⟩ := he.of_requests
    rw [hres]
    exact .handle

lemma Refines.respond (hu : s.server u = .respond id p) :
    Refines c R ({ s with
      responses := enter s.responses id (c.server_id u) (s.responses id (c.server_id u) ++ [p]) }.setServer u
        (.unlock id)) d a := by
  have hhold : (s.server u).Holds id := by
    rw [hu]
    rfl
  have htalk := h.talk_holder hhold
  rw [hu] at htalk
  have hgo := h.serve (y := .unlock id) hhold rfl (s.requests id (c.server_id u))
    (s.responses id (c.server_id u) ++ [p])
    (fun n hn => by rw [hu] at hn; exact hn.symm) (fun n hn => hn.symm) (fun i p => by rw [hu]; simp)
  rw [enter_same] at hgo
  apply hgo
  · intro hs
    rw [htalk] at hs
    have hnone : Task.respond u p = .none := congrArg Talk.task hs
    cases hnone
  · intro op st he
    rw [htalk] at he
    obtain ⟨hreq, hres, ret, hr, rfl⟩ := he.of_respond
    rw [hreq, hres]
    exact .responded hr

/-- A server thread is only sent what clients send. -/
lemma Refines.expected (hu : s.server u = .handle id p) : p.op ≠ none := by
  have hhold : (s.server u).Holds id := by
    rw [hu]
    rfl
  obtain ⟨t, op, -, -, -, -, he⟩ := h.asked hhold (by rw [hu]; simp [Server.task])
  rw [h.talk_holder hhold, hu] at he
  rw [he.of_handle.1, op_request]
  exact Option.some_ne_none op

end Servers

/-! ### Steps of the internal maps -/

lemma update_status {z : Local σ K V T S} {i : T ⊕ S} :
    (Function.update d n z m).status i = if m = n then z.status i else (d m).status i := by
  by_cases hm : m = n
  · subst hm
    rw [Function.update_self, if_pos rfl]
  · rw [Function.update_of_ne hm, if_neg hm]

section Maps

variable {f : D} {z : Local σ K V T S} {i : T ⊕ S}

/-- A step of one node's map in which one thread calls or returns. -/
lemma Refines.serves_update (h : Refines c R s d a) (hz : R f z) (hdata : s'.data = Function.update s.data n f)
    (hstate : z.state = (d n).state) (hstatus : ∀ j, j ≠ i → z.status j = (d n).status j) :
    Serves R s' d (Function.update d n z) i where
  node m := by
    rw [hdata]
    by_cases hm : m = n
    · subst hm
      rw [Function.update_self, Function.update_self]
      exact hz
    · rw [Function.update_of_ne hm, Function.update_of_ne hm]
      exact h.node m
  state m := by
    by_cases hm : m = n
    · subst hm
      rw [Function.update_self, hstate]
    · rw [Function.update_of_ne hm]
  status m j hj := by
    rw [update_status]
    split_ifs with hm
    · rw [hm, hstatus j hj]
    · rfl

variable (h : Refines c R s d a)

include h

lemma Refines.inside (hf : R f (d n)) : Refines c R { s with data := Function.update s.data n f } d a := by
  refine ⟨fun m => ?_, h.state, fun t => ?_, h.silent, h.holder, h.server, h.clientAt, h.serverAt⟩
  · change R (Function.update s.data n f m) (d m)
    by_cases hm : m = n
    · subst hm
      rw [Function.update_self]
      exact hf
    · rw [Function.update_of_ne hm]
      exact h.node m
  · apply (h.client t).frame rfl
    · exact fun m _ => rfl
    · exact fun m _ => rfl
    · exact fun m u p _ _ => rfl

lemma Refines.clientCalls (hz : R f ((d n).setStatus (.inl t) (.called op))) (ht : s.client t = .query op)
    (hid : c.client_id t = n) : Refines c R ({ s with
      data := Function.update s.data n f }.setClient t (.querying op))
      (Function.update d n ((d n).setStatus (.inl t) (.called op))) a := by
  have hst := h.client t
  rw [ht] at hst
  rw [← setStatus_same hst.1]
  apply h.client_step (t := t) (x := .querying op)
  · apply h.serves_update hz rfl rfl
    exact fun j hj => Atomic.setStatus_other hj
  · refine ⟨rfl, rfl, rfl, fun m hm => ⟨?_, op, rfl⟩, ?_, fun v hv m hm => ⟨rfl, rfl, rfl⟩, h.silent,
      fun m m' v hv => ?_⟩
    · rw [update_status] at hm
      split_ifs at hm with hmn
      · rw [hid, hmn]
      · exact h.not_calls (fun op' => by rw [ht]; simp) hm
    · refine ⟨?_, hst.2, .inl rfl⟩
      rw [update_status, if_pos hid, Atomic.setStatus_self]
    · right
      refine ⟨?_, hv⟩
      rintro rfl
      have hx := (h.holder m m' v hv).2
      rw [ht] at hx
      exact hx

lemma Refines.clientReturns (hz : R f ((d n).setStatus (.inl t) .idle)) (ht : s.client t = .querying op)
    (hid : c.client_id t = n) (hdone : (d n).status (.inl t) = .done ret) : Refines c R ({ s with
      data := Function.update s.data n f }.setClient t (.done op ret))
      (Function.update d n ((d n).setStatus (.inl t) .idle)) a := by
  have hst := h.client t
  rw [ht] at hst
  have hstatus : a.status t = .done ret := by rw [hst.1, hid, hdone]
  rw [← setStatus_same hstatus]
  apply h.client_step (t := t) (x := .done op ret)
  · apply h.serves_update hz rfl rfl
    exact fun j hj => Atomic.setStatus_other hj
  · refine ⟨rfl, rfl, rfl, fun m hm => ?_, rfl, fun v hv m hm => ⟨rfl, rfl, rfl⟩, h.silent, fun m m' v hv => ?_⟩
    · rw [update_status] at hm
      split_ifs at hm with hmn
      · rw [Atomic.setStatus_self] at hm
        exact absurd rfl hm
      · exact absurd ((h.clientAt m t hm).1.symm.trans hid) hmn
    · right
      refine ⟨?_, hv⟩
      rintro rfl
      have hx := (h.holder m m' v hv).2
      rw [ht] at hx
      exact hx

/-- A server thread calls the map or returns from it. -/
lemma Refines.server_update (hu : (s.server u).Holds id) (hheld : ∀ n, (s.server u).Holds n → n = id)
    (hy : y.Holds id) (hholds : ∀ n, y.Holds n → n = id)
    (hd : Serves R ({ s with data := Function.update s.data n f }.setServer u y) d d' (.inr u))
    (hcalls : ∀ n, (d' n).status (.inr u) ≠ .idle → c.server_id u = n ∧ ∃ id p, y = .handling id p)
    (hwork : (s.server u).task u ≠ .none)
    (hexchange : ∀ {op st}, Exchange c op (d (c.server_id u)) ⟨s.requests id (c.server_id u),
      s.responses id (c.server_id u), (s.server u).task u⟩ st → Exchange c op (d' (c.server_id u))
        ⟨s.requests id (c.server_id u), s.responses id (c.server_id u), y.task u⟩ st) :
    Refines c R ({ s with data := Function.update s.data n f }.setServer u y) d' a := by
  have htalk : State.talk ({ s with data := Function.update s.data n f }.setServer u y) id (c.server_id u) =
      ⟨s.requests id (c.server_id u), s.responses id (c.server_id u), y.task u⟩ := by
    have hlock := (h.server _ id u).mpr ⟨rfl, hu⟩
    rw [State.talk, State.task]
    change Talk.mk (s.requests id (c.server_id u)) (s.responses id (c.server_id u))
      (match s.lock_table_server (c.server_id u) id with
        | some w => (Function.update s.server u y w).task w
        | none => .none) = _
    rw [hlock]
    simp only [Function.update_self]
  suffices hs : ServerStep c s ({ s with data := Function.update s.data n f }.setServer u y) d d' u id y from
    h.server_step hd hs
  refine ⟨rfl, rfl, rfl, hcalls, hheld, hholds, h.table_keep rfl rfl (iff_of_true hu hy),
    fun n m _ => ⟨rfl, rfl, rfl⟩, fun hs => ?_, fun he => ?_⟩
  · rw [h.talk_holder hu] at hs
    exact absurd (congrArg Talk.task hs) hwork
  · rw [h.talk_holder hu] at he
    rw [htalk]
    exact hexchange he

lemma Refines.serverCalls (hz : R f ((d n).setStatus (.inr u) (.called op))) (hu : s.server u = .handle id p)
    (hid : c.server_id u = n) (hp : p.op = some op) : Refines c R ({ s with
      data := Function.update s.data n f }.setServer u (.handling id p))
      (Function.update d n ((d n).setStatus (.inr u) (.called op))) a := by
  have hholds : ∀ n, (s.server u).Holds n ↔ id = n := fun n => by
    rw [hu]
    exact Iff.rfl
  apply h.server_update (y := .handling id p) ((hholds id).mpr rfl) (fun n hn => ((hholds n).mp hn).symm)
    rfl (fun n hn => hn.symm)
  · apply h.serves_update hz rfl rfl
    exact fun j hj => Atomic.setStatus_other hj
  · intro m hm
    refine ⟨?_, id, p, rfl⟩
    rw [update_status] at hm
    split_ifs at hm with hmn
    · rw [hid, hmn]
    · exact h.not_serves (fun i q => by rw [hu]; simp) hm
  · rw [hu]
    simp [Server.task]
  · intro op' st he
    rw [hu] at he
    obtain ⟨rfl, hreq, hres, rfl⟩ := he.of_handle
    rw [op_request] at hp
    cases hp
    rw [hreq, hres]
    refine .handling ?_ (.inl rfl)
    rw [update_status, if_pos hid, Atomic.setStatus_self]

lemma Refines.serverReturns (hz : R f ((d n).setStatus (.inr u) .idle)) (hu : s.server u = .handling id p)
    (hid : c.server_id u = n) (hdone : (d n).status (.inr u) = .done ret) (answer : V) : Refines c R ({ s with
      data := Function.update s.data n f }.setServer u (.respond id (response p ret answer)))
      (Function.update d n ((d n).setStatus (.inr u) .idle)) a := by
  have hholds : ∀ n, (s.server u).Holds n ↔ id = n := fun n => by
    rw [hu]
    exact Iff.rfl
  apply h.server_update (y := .respond id (response p ret answer)) ((hholds id).mpr rfl)
    (fun n hn => ((hholds n).mp hn).symm) rfl (fun n hn => hn.symm)
  · apply h.serves_update hz rfl rfl
    exact fun j hj => Atomic.setStatus_other hj
  · intro m hm
    rw [update_status] at hm
    split_ifs at hm with hmn
    · rw [Atomic.setStatus_self] at hm
      exact absurd rfl hm
    · exact absurd ((h.serverAt m u hm).1.symm.trans hid) hmn
  · rw [hu]
    simp [Server.task]
  · intro op st he
    rw [hu] at he
    obtain ⟨rfl, hreq, hres, hstatus, -⟩ := he.of_handling
    rw [hid, hdone] at hstatus
    subst hstatus
    rw [hreq, hres]
    exact .respond (result_response c op ret answer)

/-- An operation takes effect in the map of its node. -/
lemma Refines.commit_of (hz : z = { d n with state := (O.apply (d n).state op).1 }.setStatus i
      (.done (O.apply (d n).state op).2)) (hf : R f z) (hi : (d n).status i = .called op)
    (ht : a.status t = .called op) (hplace : c.place op = n)
    (hself : Tells c { s with data := Function.update s.data n f } (Function.update d n z) t
      (.done (O.apply (d n).state op).2) (s.client t))
    (hapart : ∀ v, v ≠ t → i ≠ .inl v ∧ ∀ m u p, (s.client v).Talks m →
      s.task (c.client_id v) m = .handling u p → ¬ (m = n ∧ i = .inr u)) :
    ∃ a', a.Moves (O.divided c.place) none a' ∧
      Refines c R { s with data := Function.update s.data n f } (Function.update d n z) a' := by
  have hstatus : ∀ m j, ¬ (m = n ∧ i = j) → (Function.update d n z m).status j = (d m).status j := by
    intro m j hne
    rw [update_status]
    split_ifs with hm
    · subst hm
      rw [hz, Atomic.setStatus_other fun hj => hne ⟨rfl, hj.symm⟩]
    · rfl
  have hidle : ∀ m j, (Function.update d n z m).status j ≠ .idle → (d m).status j ≠ .idle := by
    intro m j hj
    by_cases hat : m = n ∧ i = j
    · obtain ⟨rfl, rfl⟩ := hat
      rw [hi]
      simp
    · rwa [hstatus m j hat] at hj
  have hanswer : ((O.divided c.place).apply a.state op).2 = (O.apply (d n).state op).2 := by
    change (O.apply (a.state (c.place op)) op).2 = _
    rw [hplace, h.state]
  refine ⟨_, .commit ht, fun m => ?_, ?_, fun v => ?_, h.silent, h.holder, h.server,
    fun m v hv => h.clientAt m v (hidle m _ hv), fun m u hu => h.serverAt m u (hidle m _ hu)⟩
  · change R (Function.update s.data n f m) (Function.update d n z m)
    by_cases hm : m = n
    · subst hm
      rw [Function.update_self, Function.update_self]
      exact hf
    · rw [Function.update_of_ne hm, Function.update_of_ne hm]
      exact h.node m
  · change Function.update a.state (c.place op) (O.apply (a.state (c.place op)) op).1 = _
    rw [hplace, h.state]
    funext m
    by_cases hm : m = n
    · subst hm
      rw [Function.update_self, Function.update_self, hz]
      rfl
    · rw [Function.update_of_ne hm, Function.update_of_ne hm]
  · by_cases hv : v = t
    · subst hv
      rw [Atomic.setStatus_self, hanswer]
      exact hself
    · rw [Atomic.setStatus_other hv]
      obtain ⟨hne, hserver⟩ := hapart v hv
      apply (h.client v).frame
      · exact hstatus _ _ fun hat => hne hat.2
      · exact fun m _ => rfl
      · exact fun m _ => rfl
      · exact fun m u p hm hp => hstatus _ _ (hserver m u p hm hp)

lemma Refines.commit (hz : z = { d n with state := (O.apply (d n).state op).1 }.setStatus i
      (.done (O.apply (d n).state op).2)) (hf : R f z) (hi : (d n).status i = .called op) :
    ∃ a', a.Moves (O.divided c.place) none a' ∧
      Refines c R { s with data := Function.update s.data n f } (Function.update d n z) a' := by
  have hdone : (Function.update d n z n).status i = .done (O.apply (d n).state op).2 := by
    rw [Function.update_self, hz, Atomic.setStatus_self]
  cases i with
  | inl t =>
    obtain ⟨rfl, op', hop⟩ := h.clientAt n t (by rw [hi]; simp)
    have ht := h.client t
    rw [hop] at ht
    obtain ⟨hst, hplace, hcase⟩ := ht
    have hcalled := hst.trans hi
    have hsame : op = op' := by
      rw [hcalled] at hcase
      rcases hcase with heq | ⟨ret, hret⟩
      · cases heq
        rfl
      · cases hret
    subst hsame
    apply h.commit_of hz hf hi hcalled hplace
    · rw [hop]
      exact ⟨hdone.symm, hplace, .inr ⟨_, rfl⟩⟩
    · intro v hv
      refine ⟨fun heq => hv (Sum.inl.inj heq).symm, ?_⟩
      rintro m u p - - ⟨-, heq⟩
      cases heq
  | inr u =>
    obtain ⟨rfl, id, p, hp⟩ := h.serverAt n u (by rw [hi]; simp)
    have hhold : (s.server u).Holds id := by
      rw [hp]
      rfl
    obtain ⟨t, op', rfl, ht, hplace, hlock, he⟩ := h.asked hhold (by rw [hp]; simp [Server.task])
    rw [h.talk_holder hhold, hp] at he
    obtain ⟨rfl, hreq, hres, hst, hcase⟩ := he.of_handling
    have hcalled := hst.symm.trans hi
    have hsame : op = op' := by
      rw [hcalled] at hcase
      rcases hcase with heq | ⟨ret, hret⟩
      · cases heq
        rfl
      · cases hret
    subst hsame
    apply h.commit_of hz hf hi hcalled hplace
    · rw [ht]
      refine ⟨hplace, hlock, ?_⟩
      have htalk := h.talk_holder hhold
      rw [hreq, hres, hp] at htalk
      change Exchange c op _ (s.talk (c.client_id t) (c.server_id u)) _
      rw [htalk]
      exact .handling hdone (.inr ⟨_, rfl⟩)
    · intro v hv
      refine ⟨Sum.inr_ne_inl, ?_⟩
      rintro m w q hm hq ⟨rfl, heq⟩
      cases heq
      obtain ⟨hl, -⟩ := task_handling hq
      have hw := ((h.server _ _ u).mp hl).2
      rw [hp] at hw
      exact h.apart hlock hv hm ⟨hw.symm, rfl⟩

end Maps

/-! ### Every run -/

/-- The service simulates one map, divided among the nodes. -/
theorem implements (hM : Implements M.machine O M.obs R) :
    Implements (machine c M) (O.divided c.place) observe fun s a => ∃ d, Refines c R s d a where
  init s hs := by
    refine ⟨fun _ => ⟨O.init, fun _ => .idle⟩, fun n => hM.init _ (hs.data n), rfl, fun t => ?_, fun n m _ => ?_,
      fun n m t ht => ?_, fun m n u => ?_, fun n t ht => absurd rfl ht, fun n u hu => absurd rfl hu⟩
    · rw [hs.client]
      rfl
    · rw [State.talk, State.task, hs.requests, hs.responses, hs.lock_table_server]
      rfl
    · rw [hs.lock_table_client] at ht
      cases ht
    · rw [hs.lock_table_server, hs.server]
      exact iff_of_false (by simp) fun hheld => hheld.2
  step s act s' a hr hstep := by
    obtain ⟨d, h⟩ := hr
    cases step_cases hstep with
    | @query t op ht hto =>
      have hst := h.client t
      rw [ht] at hst
      refine ⟨_, .call hst, d, h.client_put (fun op' => by rw [ht]; simp) (fun m => by rw [ht]; exact id) ?_⟩
      exact ⟨rfl, by rw [Config.place, hto]; rfl⟩
    | @remote t op m ht hto hne =>
      have hst := h.client t
      rw [ht] at hst
      refine ⟨_, .call hst, d, h.client_put (fun op' => by rw [ht]; simp) (fun m => by rw [ht]; exact id) ?_⟩
      exact ⟨rfl, by rw [Config.place, hto]; rfl⟩
    | lock ht hl => exact ⟨a, .hidden, d, h.lock ht hl⟩
    | send ht => exact ⟨a, .hidden, d, h.send ht⟩
    | deliver ht hp => exact ⟨a, .hidden, d, h.deliver ht hp⟩
    | unlock ht hret => exact ⟨a, .hidden, d, h.unlock ht hret⟩
    | @fail t op m p ht hnone =>
      have hst := h.client t
      rw [ht] at hst
      obtain ⟨-, -, ret, hret, -⟩ := hst
      rw [hnone] at hret
      cases hret
    | @inside n b answer f hf hobs =>
      obtain ⟨z, hz, hfz⟩ := hM.step _ _ _ _ (h.node n) hf
      rw [hobs] at hz
      cases hz with
      | hidden => exact ⟨a, .hidden, d, h.inside hfz⟩
      | commit hcalled =>
        obtain ⟨a', ha', h'⟩ := h.commit rfl hfz hcalled
        exact ⟨a', ha', _, h'⟩
    | @clientCalls n b answer f t op hf hobs ht hid =>
      obtain ⟨z, hz, hfz⟩ := hM.step _ _ _ _ (h.node n) hf
      rw [hobs] at hz
      cases hz with
      | call hidle => exact ⟨a, .hidden, _, h.clientCalls hfz ht hid⟩
    | @clientReturns n b answer f t op ret hf hobs ht hid =>
      obtain ⟨z, hz, hfz⟩ := hM.step _ _ _ _ (h.node n) hf
      rw [hobs] at hz
      cases hz with
      | ret hdone => exact ⟨a, .hidden, _, h.clientReturns hfz ht hid hdone⟩
    | @serverCalls n b answer f u op id p hf hobs hu hid hp =>
      obtain ⟨z, hz, hfz⟩ := hM.step _ _ _ _ (h.node n) hf
      rw [hobs] at hz
      cases hz with
      | call hidle => exact ⟨a, .hidden, _, h.serverCalls hfz hu hid hp⟩
    | @serverReturns n b answer f u id p ret hf hobs hu hid =>
      obtain ⟨z, hz, hfz⟩ := hM.step _ _ _ _ (h.node n) hf
      rw [hobs] at hz
      cases hz with
      | ret hdone => exact ⟨a, .hidden, _, h.serverReturns hfz hu hid hdone answer⟩
    | skip hu hid => exact ⟨a, .hidden, d, h.skip hu⟩
    | acquire hu hid hl => exact ⟨a, .hidden, d, h.acquire hu hl⟩
    | nothing hu hp => exact ⟨a, .hidden, d, h.nothing hu⟩
    | receive hu hp => exact ⟨a, .hidden, d, h.receive hu hp⟩
    | unexpected hu hp => exact absurd hp (h.expected hu)
    | respond hu => exact ⟨a, .hidden, d, h.respond hu⟩
    | release hu => exact ⟨a, .hidden, d, h.release hu⟩
    | @finish t op ret ht =>
      have hst := h.client t
      rw [ht] at hst
      have hobs : observe s (.finish t : Act B K V T S) = some (.ret t ret) := by
        simp only [observe, ht]
      rw [hobs]
      exact ⟨_, .ret hst, d, h.client_put (fun op' => by rw [ht]; simp) (fun m => by rw [ht]; exact id) rfl⟩

end ObjectCache.Rpc.Service
