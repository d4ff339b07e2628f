import ObjectCache.Lib.Transition
import Mathlib.Data.List.Basic
import Mathlib.Logic.Function.Basic

/-! The rounds of a benchmark: the clients of all nodes and the server meet in barriers, and collect and
distribute one message of every client. Every connection delivers in order, at any later time. -/

set_option linter.unusedSectionVars false

namespace ObjectCache.Bench

open Lib

/-- `ClientArriveBarrier` with `ServerStopBarrier`, `map_reduce` with `collect_distribute`, and the message
with the root pointer. -/
inductive Round where
  | barrier
  | reduce
  | pointer
  deriving DecidableEq

/-- The clients that the server has accepted, and the rounds that it and they go through. -/
structure Config (C M : Type) where
  clients : List C
  script : List Round
  ack : M
  root_ptr : M

structure Client where
  round : ℕ
  sent : Bool

/-- `msgs` is the receive buffer of the round, `given` counts the messages sent to each client in it. -/
structure Server (C M : Type) where
  round : ℕ
  msgs : C → Option M
  given : C → ℕ

/-- With what every client has sent and received in every round. -/
structure State (C M : Type) where
  up : C → List M
  down : C → List M
  client : C → Client
  server : Server C M
  said : ℕ → C → Option M
  heard : ℕ → C → List M

inductive Act (C M : Type) where
  | send (t : C) (m : M)
  | recv (t : C)
  | collect (t : C)
  | give (t : C)
  | turn

variable {C M : Type}

instance : Inhabited (Act C M) := ⟨.turn⟩

namespace Config

variable (c : Config C M)

/-- Whether the clients send a message in this round. -/
def collects (q : ℕ) : Bool :=
  match c.script[q]? with
  | some .barrier | some .reduce => true
  | some .pointer | none => false

/-- How many messages a client waits for. -/
def expected (q : ℕ) : ℕ :=
  match c.script[q]? with
  | some .reduce => c.clients.length
  | some .barrier | some .pointer => 1
  | none => 0

/-- What the server sends to every client, one after the other. -/
def messages (q : ℕ) (msgs : C → Option M) : List M :=
  match c.script[q]? with
  | some .barrier => [c.ack]
  | some .reduce => c.clients.filterMap msgs
  | some .pointer => [c.root_ptr]
  | none => []

end Config

/-- `recv_from_all` has returned. -/
def Server.Ready (c : Config C M) (x : Server C M) : Prop :=
  c.collects x.round = true → ∀ t ∈ c.clients, x.msgs t ≠ none

variable [DecidableEq C]

instance (c : Config C M) (x : Server C M) : Decidable (x.Ready c) :=
  decidable_of_iff (c.collects x.round = true → ∀ t ∈ c.clients, (x.msgs t).isSome)
    (by simp only [Server.Ready, Option.isSome_iff_ne_none])

/-- An entry of a round and a client. -/
def enter {β : Type} (f : ℕ → C → β) (q : ℕ) (t : C) (y : β) : ℕ → C → β :=
  Function.update f q (Function.update (f q) t y)

def step (c : Config C M) (s : State C M) : Act C M → Option (State C M)
  | .send t m =>
    let x := s.client t
    if t ∈ c.clients ∧ c.collects x.round = true ∧ x.sent = false then
      some { s with
        up := Function.update s.up t (s.up t ++ [m])
        client := Function.update s.client t { x with sent := true }
        said := enter s.said x.round t (some m) }
    else none
  | .recv t =>
    let x := s.client t
    match s.down t with
    | [] => none
    | m :: rest =>
      if t ∈ c.clients ∧ x.round < c.script.length ∧ (c.collects x.round = true → x.sent = true) then
        let got := s.heard x.round t ++ [m]
        some { s with
          down := Function.update s.down t rest
          client := Function.update s.client t (if got.length = c.expected x.round then ⟨x.round + 1, false⟩ else x)
          heard := enter s.heard x.round t got }
      else none
  | .collect t =>
    let x := s.server
    match s.up t with
    | [] => none
    | m :: rest =>
      if t ∈ c.clients ∧ c.collects x.round = true ∧ x.msgs t = none then
        some { s with
          up := Function.update s.up t rest
          server := { x with msgs := Function.update x.msgs t (some m) } }
      else none
  | .give t =>
    let x := s.server
    match (c.messages x.round x.msgs)[x.given t]? with
    | none => none
    | some m =>
      -- `send_to_all` goes on to the next message when every client has been sent this one
      if t ∈ c.clients ∧ x.Ready c ∧ ∀ u ∈ c.clients, x.given t ≤ x.given u then
        some { s with
          down := Function.update s.down t (s.down t ++ [m])
          server := { x with given := Function.update x.given t (x.given t + 1) } }
      else none
  | .turn =>
    let x := s.server
    if x.round < c.script.length ∧ x.Ready c ∧
        ∀ u ∈ c.clients, x.given u = (c.messages x.round x.msgs).length then
      some { s with server := ⟨x.round + 1, fun _ => none, fun _ => 0⟩ }
    else none

def initial : State C M where
  up _ := []
  down _ := []
  client _ := ⟨0, false⟩
  server := ⟨0, fun _ => none, fun _ => 0⟩
  said _ _ := none
  heard _ _ := []

def machine (c : Config C M) : Machine (State C M) (Act C M) where
  init s := s = initial
  step := step c

/-- Every step, with what it requires. -/
inductive Step (c : Config C M) (s : State C M) : Act C M → State C M → Prop
  | send {t m} : t ∈ c.clients → c.collects (s.client t).round = true → (s.client t).sent = false →
      Step c s (.send t m) { s with
        up := Function.update s.up t (s.up t ++ [m])
        client := Function.update s.client t { s.client t with sent := true }
        said := enter s.said (s.client t).round t (some m) }
  | recv {t m rest} : t ∈ c.clients → (s.client t).round < c.script.length →
      (c.collects (s.client t).round = true → (s.client t).sent = true) → s.down t = m :: rest →
      (s.heard (s.client t).round t).length + 1 ≠ c.expected (s.client t).round →
      Step c s (.recv t) { s with
        down := Function.update s.down t rest
        heard := enter s.heard (s.client t).round t (s.heard (s.client t).round t ++ [m]) }
  | pass {t m rest} : t ∈ c.clients → (s.client t).round < c.script.length →
      (c.collects (s.client t).round = true → (s.client t).sent = true) → s.down t = m :: rest →
      (s.heard (s.client t).round t).length + 1 = c.expected (s.client t).round →
      Step c s (.recv t) { s with
        down := Function.update s.down t rest
        client := Function.update s.client t ⟨(s.client t).round + 1, false⟩
        heard := enter s.heard (s.client t).round t (s.heard (s.client t).round t ++ [m]) }
  | collect {t m rest} : t ∈ c.clients → c.collects s.server.round = true → s.server.msgs t = none →
      s.up t = m :: rest →
      Step c s (.collect t) { s with
        up := Function.update s.up t rest
        server := { s.server with msgs := Function.update s.server.msgs t (some m) } }
  | give {t m} : t ∈ c.clients → s.server.Ready c →
      (c.messages s.server.round s.server.msgs)[s.server.given t]? = some m →
      Step c s (.give t) { s with
        down := Function.update s.down t (s.down t ++ [m])
        server := { s.server with given := Function.update s.server.given t (s.server.given t + 1) } }
  | turn : s.server.round < c.script.length → s.server.Ready c →
      (∀ u ∈ c.clients, s.server.given u = (c.messages s.server.round s.server.msgs).length) →
      Step c s .turn { s with server := ⟨s.server.round + 1, fun _ => none, fun _ => 0⟩ }

variable {c : Config C M} {s s' : State C M} {a : Act C M} {t u : C} {m : M} {q r n g j : ℕ} {D E : ℕ → List M}

lemma step_cases (h : step c s a = some s') : Step c s a s' := by
  cases a with
  | send t m =>
    simp only [step, Option.ite_none_right_eq_some, Option.some.injEq] at h
    obtain ⟨⟨ht, hc, hs⟩, rfl⟩ := h
    exact .send ht hc hs
  | recv t =>
    cases hd : s.down t with
    | nil => simp [step, hd] at h
    | cons m rest =>
      simp only [step, hd, Option.ite_none_right_eq_some, Option.some.injEq, List.length_append,
        List.length_singleton] at h
      obtain ⟨⟨ht, hlt, hs⟩, rfl⟩ := h
      split_ifs with hlast
      · exact .pass ht hlt hs hd hlast
      · rw [Function.update_eq_self]
        exact .recv ht hlt hs hd hlast
  | collect t =>
    cases hu : s.up t with
    | nil => simp [step, hu] at h
    | cons m rest =>
      simp only [step, hu, Option.ite_none_right_eq_some, Option.some.injEq] at h
      obtain ⟨⟨ht, hc, hm⟩, rfl⟩ := h
      exact .collect ht hc hm hu
  | give t =>
    cases hm : (c.messages s.server.round s.server.msgs)[s.server.given t]? with
    | none => simp [step, hm] at h
    | some m =>
      simp only [step, hm, Option.ite_none_right_eq_some, Option.some.injEq] at h
      obtain ⟨⟨ht, hr, -⟩, rfl⟩ := h
      exact .give ht hr hm
  | turn =>
    simp only [step, Option.ite_none_right_eq_some, Option.some.injEq] at h
    obtain ⟨⟨hlt, hr, hall⟩, rfl⟩ := h
    exact .turn hlt hr hall

/-! ### Rounds of messages -/

/-- What lies between the first `n` messages of round `r` and the first `g` of the round `j` rounds on. -/
def between (D : ℕ → List M) (g : ℕ) : ℕ → ℕ → ℕ → List M
  | 0, r, n => ((D r).take g).drop n
  | j + 1, r, n => (D r).drop n ++ between D g j (r + 1) 0

lemma between_succ (hn : j = 0 → n ≤ g) (hg : (D (r + j))[g]? = some m) :
    between D (g + 1) j r n = between D g j r n ++ [m] := by
  induction j generalizing r n with
  | zero =>
    rw [Nat.add_zero] at hg
    obtain ⟨hlt, -⟩ := List.getElem?_eq_some_iff.mp hg
    have hlen : n ≤ ((D r).take g).length := by
      have hle := hn rfl
      rw [List.length_take]
      omega
    rw [between, between, List.take_add_one, hg, List.drop_append_of_le_length hlen]
    rfl
  | succ j ih =>
    rw [between, between, ih (fun _ => Nat.zero_le g) (by rwa [Nat.add_assoc, Nat.add_comm 1 j]),
      List.append_assoc]

lemma between_next (hn : j = 0 → n ≤ (D (r + j)).length) :
    between D 0 (j + 1) r n = between D (D (r + j)).length j r n := by
  induction j generalizing r n with
  | zero => simp [between]
  | succ j ih =>
    have hj : r + (j + 1) = r + 1 + j := by omega
    rw [between, ih (fun _ => Nat.zero_le _), hj]
    rfl

lemma between_congr (hlt : ∀ q, r ≤ q → q < r + j → D q = E q) (hlast : g ≠ 0 → D (r + j) = E (r + j)) :
    between D g j r n = between E g j r n := by
  induction j generalizing r n with
  | zero =>
    by_cases hg : g = 0
    · simp [between, hg]
    · rw [between, between, show D r = E r from hlast hg]
  | succ j ih =>
    rw [between, between, hlt r (Nat.le_refl r) (by omega), ih (fun q hr hq => hlt q (by omega) (by omega))]
    intro hg
    have hj : r + 1 + j = r + (j + 1) := by omega
    rw [hj]
    exact hlast hg

lemma between_cons {rest : List M} (h : between D g j r n = m :: rest) (hn : n < (D r).length) :
    (D r)[n]? = some m ∧ between D g j r (n + 1) = rest := by
  cases j with
  | zero =>
    have hcons : ((D r).take g)[n]? = some m ∧ ((D r).take g).drop (n + 1) = rest := by
      have hdrop : ((D r).take g).drop n = m :: rest := h
      refine ⟨?_, ?_⟩
      · rw [← Nat.add_zero n, ← List.getElem?_drop, hdrop]
        rfl
      · rw [← List.drop_drop, hdrop]
        rfl
    refine ⟨?_, hcons.2⟩
    obtain ⟨hlt, hm⟩ := List.getElem?_eq_some_iff.mp hcons.1
    rw [List.getElem_take] at hm
    rw [List.getElem?_eq_getElem hn, hm]
  | succ j =>
    rw [between, List.drop_eq_getElem_cons hn, List.cons_append, List.cons.injEq] at h
    rw [List.getElem?_eq_getElem hn, h.1]
    exact ⟨rfl, h.2⟩

/-! ### The invariant -/

namespace State

variable (s : State C M)

/-- What the clients have said in a round, as the server distributes it. -/
def shared (c : Config C M) (q : ℕ) : List M := c.messages q (s.said q)

/-- One client and its two connections. -/
structure Side (c : Config C M) (t : C) : Prop where
  said : ∀ q, s.said q t ≠ none ↔
    c.collects q = true ∧ (q < (s.client t).round ∨ q = (s.client t).round ∧ (s.client t).sent = true)
  ahead : (s.client t).round ≤ s.server.round + 1
  le : (s.client t).round ≤ c.script.length
  past : ∀ q < (s.client t).round, s.heard q t = s.shared c q ∧ (s.shared c q).length = c.expected q
  now : s.heard (s.client t).round t = (s.shared c (s.client t).round).take (s.heard (s.client t).round t).length
  short : (s.client t).round < c.script.length →
    (s.heard (s.client t).round t).length < c.expected (s.client t).round
  later : ∀ q, (s.client t).round < q → s.heard q t = []
  here : (s.client t).round = s.server.round → (s.heard (s.client t).round t).length ≤ s.server.given t
  front : (s.client t).round = s.server.round + 1 → s.heard (s.client t).round t = [] ∧ s.down t = [] ∧
    s.server.given t = (s.shared c s.server.round).length ∧ s.server.Ready c
  up : s.up t = (if s.server.msgs t = none then (s.said s.server.round t).toList else []) ++
    (s.said (s.server.round + 1) t).toList
  down : (s.client t).round ≤ s.server.round → s.down t = between (s.shared c) (s.server.given t)
    (s.server.round - (s.client t).round) (s.client t).round (s.heard (s.client t).round t).length

structure Inv (c : Config C M) : Prop where
  le : s.server.round ≤ c.script.length
  early : ∀ q < s.server.round, c.collects q = true → ∀ t ∈ c.clients, s.said q t ≠ none
  msgs : ∀ t ∈ c.clients, ∀ m, s.server.msgs t = some m →
    s.said s.server.round t = some m ∧ c.collects s.server.round = true
  started : ∀ t ∈ c.clients, s.server.given t ≠ 0 → s.server.Ready c
  given_le : ∀ t ∈ c.clients, s.server.given t ≤ (s.shared c s.server.round).length
  side : ∀ t ∈ c.clients, s.Side c t

end State

lemma enter_apply {β : Type} (f : ℕ → C → β) (y : β) (p : ℕ) :
    enter f q t y p u = if p = q ∧ u = t then y else f p u := by
  rw [enter]
  by_cases hp : p = q
  · subst hp
    by_cases hu : u = t
    · subst hu
      simp
    · simp [hu]
  · simp [hp]

lemma length_messages {msgs : C → Option M} (h : c.collects q = true → ∀ t ∈ c.clients, msgs t ≠ none) :
    (c.messages q msgs).length = c.expected q := by
  have hall : c.collects q = true → (c.clients.filterMap msgs).length = c.clients.length := by
    intro hc
    rw [List.length_filterMap_eq_countP, List.countP_eq_length]
    exact fun t ht => Option.isSome_iff_ne_none.mpr (h hc t ht)
  rw [Config.messages, Config.expected]
  rw [Config.collects] at hall
  cases hq : c.script[q]? with
  | none => rfl
  | some x =>
    cases x with
    | barrier => rfl
    | reduce =>
      rw [hq] at hall
      exact hall rfl
    | pointer => rfl

lemma messages_congr {msgs said : C → Option M} (h : c.collects q = true → ∀ t ∈ c.clients, msgs t = said t) :
    c.messages q msgs = c.messages q said := by
  rw [Config.messages, Config.messages]
  rw [Config.collects] at h
  cases hq : c.script[q]? with
  | none => rfl
  | some x =>
    cases x with
    | barrier => rfl
    | reduce =>
      rw [hq] at h
      exact List.filterMap_congr (h rfl)
    | pointer => rfl

lemma expected_pos (ht : t ∈ c.clients) (hq : q < c.script.length) : 0 < c.expected q := by
  rw [Config.expected, List.getElem?_eq_getElem hq]
  cases c.script[q] with
  | reduce => exact List.length_pos_of_mem ht
  | barrier | pointer => exact Nat.one_pos

lemma lt_of_collects (h : c.collects q = true) : q < c.script.length := by
  by_contra hge
  rw [Config.collects, List.getElem?_eq_none (by omega)] at h
  cases h

namespace State.Inv

variable (h : s.Inv c)

include h

/-- The buffer of a round that is ready holds what the clients have said. -/
lemma messages_eq (hr : s.server.Ready c) : c.messages s.server.round s.server.msgs = s.shared c s.server.round := by
  apply messages_congr
  intro hc t ht
  obtain ⟨m, hm⟩ := Option.ne_none_iff_exists'.mp (hr hc t ht)
  rw [hm, (h.msgs t ht m hm).1]

lemma length_shared (hr : s.server.Ready c) : (s.shared c s.server.round).length = c.expected s.server.round := by
  rw [← h.messages_eq hr]
  exact length_messages hr

lemma length_early (hq : q < s.server.round) : (s.shared c q).length = c.expected q :=
  length_messages (h.early q hq)

end State.Inv

lemma Inv.initial : (initial : State C M).Inv c where
  le := Nat.zero_le _
  early q hq := absurd hq (Nat.not_lt_zero q)
  msgs t ht m hm := by cases hm
  started t ht hg := absurd rfl hg
  given_le t ht := Nat.zero_le _
  side t ht := {
    said := fun q => by simp [Bench.initial]
    ahead := Nat.zero_le _
    le := Nat.zero_le _
    past := fun q hq => absurd hq (Nat.not_lt_zero q)
    now := rfl
    short := expected_pos ht
    later := fun q hq => rfl
    here := fun _ => Nat.le_refl 0
    front := fun hr => by cases hr
    up := rfl
    down := fun _ => rfl }

lemma enter_of_ne {β : Type} {f : ℕ → C → β} {y : β} {p : ℕ} (hp : p ≠ q) : enter f q t y p = f p :=
  Function.update_of_ne hp ..

lemma enter_self {β : Type} {f : ℕ → C → β} {y : β} : enter f q t y q t = y := by
  rw [enter_apply, if_pos ⟨rfl, rfl⟩]

lemma enter_other {β : Type} {f : ℕ → C → β} {y : β} {p : ℕ} (hu : u ≠ t) : enter f q t y p u = f p u := by
  rw [enter_apply, if_neg (fun hx => hu hx.2)]

/-! ### One step -/

section Send

variable (h : s.Inv c) (ht : t ∈ c.clients) (hc : c.collects (s.client t).round = true)
  (hs : (s.client t).sent = false)

include h ht hc hs

lemma State.Inv.unsaid : s.said (s.client t).round t = none := by
  by_contra hne
  obtain ⟨-, hlt | ⟨-, hsent⟩⟩ := ((h.side t ht).said _).mp hne
  · exact absurd hlt (Nat.lt_irrefl _)
  · rw [hs] at hsent
    cases hsent

lemma State.Inv.round_le : s.server.round ≤ (s.client t).round := by
  by_contra hlt
  exact h.early _ (by omega) hc t ht (h.unsaid ht hc hs)

/-- While the server waits for this message it has sent nothing. -/
lemma State.Inv.waits (hr : (s.client t).round = s.server.round) :
    ¬ s.server.Ready c ∧ ∀ u ∈ c.clients, s.server.given u = 0 := by
  have hnot : ¬ s.server.Ready c := by
    intro hready
    rw [hr] at hc
    obtain ⟨m, hm⟩ := Option.ne_none_iff_exists'.mp (hready hc t ht)
    have hsaid := (h.msgs t ht m hm).1
    rw [← hr, h.unsaid ht (by rwa [hr]) hs] at hsaid
    cases hsaid
  refine ⟨hnot, fun u hu => ?_⟩
  by_contra hne
  exact hnot (h.started u hu hne)

lemma State.Inv.unheard (hu : u ∈ c.clients) (hr : (s.client u).round = (s.client t).round) :
    s.heard (s.client u).round u = [] := by
  have hside := h.side u hu
  have hge := h.round_le ht hc hs
  rcases Nat.lt_or_ge s.server.round (s.client t).round with hlt | hle
  · have hahead := hside.ahead
    exact (hside.front (by omega)).1
  · have hzero := (h.waits ht hc hs (by omega)).2 u hu
    have hhere := hside.here (by omega)
    rw [hzero] at hhere
    exact List.eq_nil_of_length_eq_zero (Nat.le_zero.mp hhere)

lemma State.Inv.send : State.Inv { s with
    up := Function.update s.up t (s.up t ++ [m])
    client := Function.update s.client t { s.client t with sent := true }
    said := enter s.said (s.client t).round t (some m) } c := by
  have hge := h.round_le ht hc hs
  have hunsaid := h.unsaid ht hc hs
  have hwaits := h.waits ht hc hs
  have hshared : ∀ q, q ≠ (s.client t).round → c.messages q (enter s.said (s.client t).round t (some m) q) =
      s.shared c q := by
    intro q hq
    rw [enter_of_ne hq]
    rfl
  constructor
  · exact h.le
  · intro q hq hcq u hu
    change enter s.said (s.client t).round t (some m) q u ≠ none
    rw [enter_of_ne (by have hlt : q < s.server.round := hq; omega)]
    exact h.early q hq hcq u hu
  · intro u hu m' hm
    obtain ⟨hsaid, hcollects⟩ := h.msgs u hu m' hm
    refine ⟨?_, hcollects⟩
    change enter s.said (s.client t).round t (some m) s.server.round u = some m'
    rw [enter_apply, if_neg]
    · exact hsaid
    · rintro ⟨hr, rfl⟩
      rw [hr, hunsaid] at hsaid
      cases hsaid
  · exact h.started
  · intro u hu
    change s.server.given u ≤ (c.messages s.server.round _).length
    by_cases hr : s.server.round = (s.client t).round
    · rw [(hwaits hr.symm).2 u hu]
      exact Nat.zero_le _
    · rw [hshared _ hr]
      exact h.given_le u hu
  · intro u hu
    have hside := h.side u hu
    have hround : (Function.update s.client t { s.client t with sent := true } u).round = (s.client u).round := by
      by_cases hut : u = t
      · rw [hut, Function.update_self]
      · rw [Function.update_of_ne hut]
    have hfront : (s.client u).round = s.server.round + 1 → s.server.round ≠ (s.client t).round :=
      fun hr heq => (hwaits heq.symm).1 (hside.front hr).2.2.2
    constructor
    all_goals simp only [hround, State.shared]
    · intro q
      rw [enter_apply]
      by_cases hut : u = t
      · subst hut
        rw [Function.update_self]
        by_cases hq : q = (s.client u).round
        · simp [hq, hc]
        · rw [if_neg (fun hx => hq hx.1), hside.said q]
          simp [hq]
      · rw [Function.update_of_ne hut, if_neg (fun hx => hut hx.2)]
        exact hside.said q
    · exact hside.ahead
    · exact hside.le
    · intro q hq
      have hahead := hside.ahead
      rw [hshared q (fun heq => hfront (by omega) (by omega))]
      exact hside.past q hq
    · by_cases hr : (s.client u).round = (s.client t).round
      · rw [h.unheard ht hc hs hu hr]
        rfl
      · rw [hshared _ hr]
        exact hside.now
    · exact hside.short
    · exact hside.later
    · exact hside.here
    · intro hr
      rw [hshared _ (hfront hr)]
      exact hside.front hr
    · by_cases hut : u = t
      · subst hut
        have hlater : s.said (s.server.round + 1) u = none := by
          by_contra hne
          obtain ⟨-, hlt | ⟨heq, hsent⟩⟩ := (hside.said _).mp hne
          · have hahead := hside.ahead
            omega
          · rw [hs] at hsent
            cases hsent
        have hahead := hside.ahead
        have hup := hside.up
        rw [hlater] at hup
        rw [Function.update_self, hup]
        rcases Nat.lt_or_eq_of_le hge with hlt | heq
        · have hnext : s.server.round + 1 = (s.client u).round := by omega
          rw [hnext, enter_of_ne (Nat.ne_of_lt hlt), enter_self]
          simp
        · have hnone : s.server.msgs u = none := by
            by_contra hne
            obtain ⟨m', hm⟩ := Option.ne_none_iff_exists'.mp hne
            have hsaid := (h.msgs u hu m' hm).1
            rw [heq, hunsaid] at hsaid
            cases hsaid
          rw [heq, enter_of_ne (Nat.succ_ne_self _), enter_self, ← heq, hlater, heq, hunsaid,
            if_pos hnone, if_pos hnone]
          rfl
      · rw [Function.update_of_ne hut, enter_other hut, enter_other hut]
        exact hside.up
    · intro hr
      rw [hside.down hr]
      refine between_congr (fun q hqr hq => ?_) fun hg => ?_
      · exact (hshared q (by omega)).symm
      · have hne : s.server.round ≠ (s.client t).round := fun heq => hg ((hwaits heq.symm).2 u hu)
        exact (hshared _ (by omega)).symm

end Send

section Server

variable (h : s.Inv c)

include h

lemma State.Inv.collect {rest : List M} (ht : t ∈ c.clients) (hc : c.collects s.server.round = true)
    (hm : s.server.msgs t = none) (hup : s.up t = m :: rest) : State.Inv { s with
      up := Function.update s.up t rest
      server := { s.server with msgs := Function.update s.server.msgs t (some m) } } c := by
  have hside := h.side t ht
  obtain ⟨hsaid, hrest⟩ : s.said s.server.round t = some m ∧ rest = (s.said (s.server.round + 1) t).toList := by
    have hold := hside.up
    rw [hup, if_pos hm] at hold
    cases hsaid : s.said s.server.round t with
    | none =>
      have hlater : s.said (s.server.round + 1) t = none := by
        by_contra hne
        have hnot := mt (hside.said s.server.round).mpr (not_not.mpr hsaid)
        obtain ⟨-, hlt⟩ := (hside.said _).mp hne
        exact hnot ⟨hc, .inl (by omega)⟩
      rw [hsaid, hlater] at hold
      cases hold
    | some m' =>
      rw [hsaid] at hold
      cases hold
      exact ⟨rfl, rfl⟩
  have hready : s.server.Ready c → Server.Ready c
      { s.server with msgs := Function.update s.server.msgs t (some m) } :=
    fun hr => absurd hm (hr hc t ht)
  constructor
  · exact h.le
  · exact h.early
  · intro u hu m' hm'
    by_cases hut : u = t
    · subst hut
      simp only [Function.update_self, Option.some.injEq] at hm'
      rw [← hm']
      exact ⟨hsaid, hc⟩
    · simp only [Function.update_of_ne hut] at hm'
      exact h.msgs u hu m' hm'
  · exact fun u hu hg => hready (h.started u hu hg)
  · exact h.given_le
  · intro u hu
    have hsideu := h.side u hu
    refine ⟨hsideu.said, hsideu.ahead, hsideu.le, hsideu.past, hsideu.now, hsideu.short, hsideu.later,
      hsideu.here, fun hr => ?_, ?_, hsideu.down⟩
    · exact absurd hm ((hsideu.front hr).2.2.2 hc t ht)
    · by_cases hut : u = t
      · subst hut
        simp [hrest]
      · simp only [Function.update_of_ne hut]
        exact hsideu.up

lemma State.Inv.give (ht : t ∈ c.clients) (hready : s.server.Ready c)
    (hm : (c.messages s.server.round s.server.msgs)[s.server.given t]? = some m) : State.Inv { s with
      down := Function.update s.down t (s.down t ++ [m])
      server := { s.server with given := Function.update s.server.given t (s.server.given t + 1) } } c := by
  rw [h.messages_eq hready] at hm
  obtain ⟨hlt, -⟩ := List.getElem?_eq_some_iff.mp hm
  have hgiven : ∀ u, s.server.given u ≤ Function.update s.server.given t (s.server.given t + 1) u := by
    intro u
    by_cases hut : u = t
    · rw [hut, Function.update_self]
      exact Nat.le_succ _
    · simp only [Function.update_of_ne hut, Nat.le_refl]
  refine ⟨h.le, h.early, h.msgs, fun _ _ _ => hready, fun u hu => ?_, fun u hu => ?_⟩
  · change Function.update s.server.given t (s.server.given t + 1) u ≤ _
    by_cases hut : u = t
    · rw [hut, Function.update_self]
      exact hlt
    · rw [Function.update_of_ne hut]
      exact h.given_le u hu
  · have hside := h.side u hu
    refine ⟨hside.said, hside.ahead, hside.le, hside.past, hside.now, hside.short, hside.later,
      fun hr => Nat.le_trans (hside.here hr) (hgiven u), fun hr => ?_, hside.up, fun hr => ?_⟩
    · by_cases hut : u = t
      · subst hut
        have hall := (hside.front hr).2.2.1
        omega
      · simp only [Function.update_of_ne hut]
        exact hside.front hr
    · by_cases hut : u = t
      · subst hut
        have hsum : (s.client u).round + (s.server.round - (s.client u).round) = s.server.round := by
          have hle : (s.client u).round ≤ s.server.round := hr
          omega
        simp only [Function.update_self]
        rw [hside.down hr]
        refine (between_succ (fun hj => hside.here ?_) ?_).symm
        · omega
        · rwa [hsum]
      · simp only [Function.update_of_ne hut]
        exact hside.down hr

lemma State.Inv.turn (hlt : s.server.round < c.script.length) (hready : s.server.Ready c)
    (hall : ∀ u ∈ c.clients, s.server.given u = (c.messages s.server.round s.server.msgs).length) :
    State.Inv { s with server := ⟨s.server.round + 1, fun _ => none, fun _ => 0⟩ } c := by
  rw [h.messages_eq hready] at hall
  refine ⟨hlt, fun q hq hc u hu => ?_, fun u hu m hm => ?_, fun u hu hg => absurd rfl hg,
    fun u hu => Nat.zero_le _, fun u hu => ?_⟩
  · rcases Nat.lt_or_eq_of_le (Nat.le_of_lt_succ hq) with hq | rfl
    · exact h.early q hq hc u hu
    · obtain ⟨m, hm⟩ := Option.ne_none_iff_exists'.mp (hready hc u hu)
      rw [(h.msgs u hu m hm).1]
      exact Option.some_ne_none m
  · cases hm
  · have hside := h.side u hu
    have hahead := hside.ahead
    refine ⟨hside.said, Nat.le_succ_of_le hahead, hside.le, hside.past, hside.now, hside.short, hside.later,
      fun hr => ?_, fun hr => ?_, ?_, fun hr => ?_⟩
    · rw [(hside.front hr).1]
      exact Nat.le_refl 0
    · change (s.client u).round = s.server.round + 1 + 1 at hr
      omega
    · have hlater : s.said (s.server.round + 1 + 1) u = none := by
        by_contra hne
        obtain ⟨-, hx⟩ := (hside.said _).mp hne
        omega
      have hnow : (if s.server.msgs u = none then (s.said s.server.round u).toList else []) = [] := by
        split_ifs with hmsgs
        · have hsaid : s.said s.server.round u = none := by
            by_contra hne
            exact hready ((hside.said _).mp hne).1 u hu hmsgs
          rw [hsaid]
          rfl
        · rfl
      change s.up u = _
      rw [hside.up, hnow, hlater]
      simp
    · rcases Nat.lt_or_eq_of_le hahead with hle | heq
      · have hj : s.server.round + 1 - (s.client u).round = s.server.round - (s.client u).round + 1 := by omega
        have hsum : (s.client u).round + (s.server.round - (s.client u).round) = s.server.round := by omega
        change s.down u = between _ 0 (s.server.round + 1 - (s.client u).round) _ _
        rw [hside.down (Nat.le_of_lt_succ hle), hj, between_next, hsum, hall u hu]
        · rfl
        · intro hzero
          have hhere := hside.here (by omega)
          rw [hall u hu] at hhere
          rw [hsum]
          exact hhere
      · obtain ⟨-, hdown, -⟩ := hside.front heq
        change s.down u = between _ 0 (s.server.round + 1 - (s.client u).round) _ _
        rw [hdown, heq, Nat.sub_self]
        simp [between]

end Server

section Recv

variable {rest : List M} (h : s.Inv c) (ht : t ∈ c.clients) (hlt : (s.client t).round < c.script.length)
  (hs : c.collects (s.client t).round = true → (s.client t).sent = true) (hd : s.down t = m :: rest)

include h ht hlt hd

/-- The next message of a connection is the one that the client waits for. -/
lemma State.Inv.next_message : (s.client t).round ≤ s.server.round ∧
    (s.shared c (s.client t).round).length = c.expected (s.client t).round ∧
      (s.shared c (s.client t).round)[(s.heard (s.client t).round t).length]? = some m ∧
        rest = between (s.shared c) (s.server.given t) (s.server.round - (s.client t).round) (s.client t).round
          ((s.heard (s.client t).round t).length + 1) := by
  have hside := h.side t ht
  have hle : (s.client t).round ≤ s.server.round := by
    by_contra hgt
    have hahead := hside.ahead
    obtain ⟨-, hnil, -⟩ := hside.front (by omega)
    rw [hd] at hnil
    cases hnil
  have hbetween := hside.down hle
  rw [hd] at hbetween
  have hlength : (s.shared c (s.client t).round).length = c.expected (s.client t).round := by
    rcases Nat.lt_or_eq_of_le hle with hbehind | hat
    · exact h.length_early hbehind
    · have hgiven : s.server.given t ≠ 0 := by
        intro hzero
        rw [hat, Nat.sub_self, hzero] at hbetween
        simp [between] at hbetween
      rw [hat]
      exact h.length_shared (h.started t ht hgiven)
  have hshort := hside.short hlt
  obtain ⟨hget, hrest⟩ := between_cons hbetween.symm (by omega)
  exact ⟨hle, hlength, hget, hrest.symm⟩

/-- What a client has received in a round, with one more message. -/
lemma State.Inv.heard_next : s.heard (s.client t).round t ++ [m] =
    (s.shared c (s.client t).round).take ((s.heard (s.client t).round t).length + 1) := by
  obtain ⟨-, -, hget, -⟩ := h.next_message ht hlt hd
  rw [List.take_add_one, hget, ← (h.side t ht).now]
  rfl

lemma State.Inv.recv (hmore : (s.heard (s.client t).round t).length + 1 ≠ c.expected (s.client t).round) :
    State.Inv { s with
      down := Function.update s.down t rest
      heard := enter s.heard (s.client t).round t (s.heard (s.client t).round t ++ [m]) } c := by
  obtain ⟨hle, hlength, hget, hrest⟩ := h.next_message ht hlt hd
  have hnext := h.heard_next ht hlt hd
  refine ⟨h.le, h.early, h.msgs, h.started, h.given_le, fun u hu => ?_⟩
  have hside := h.side u hu
  by_cases hut : u = t
  · subst hut
    have hshort := hside.short hlt
    refine ⟨hside.said, hside.ahead, hside.le, fun q hq => ?_, ?_, fun _ => ?_, fun q hq => ?_, fun hr => ?_,
      fun hr => ?_, hside.up, fun hr => ?_⟩
    · simp only [enter_of_ne (Nat.ne_of_lt hq)]
      exact hside.past q hq
    · simp only [enter_self, List.length_append, List.length_singleton]
      exact hnext
    · simp only [enter_self, List.length_append, List.length_singleton]
      omega
    · simp only [enter_of_ne (Nat.ne_of_gt hq)]
      exact hside.later q hq
    · simp only [enter_self, List.length_append, List.length_singleton]
      have hbetween := hside.down hle
      change (s.client u).round = s.server.round at hr
      rw [hd, hr, Nat.sub_self, between, ← hr] at hbetween
      by_contra hgt
      have hnil : ((s.shared c (s.client u).round).take (s.server.given u)).drop
          (s.heard (s.client u).round u).length = [] := by
        rw [List.drop_eq_nil_iff, List.length_take]
        omega
      rw [hnil] at hbetween
      cases hbetween
    · change (s.client u).round = s.server.round + 1 at hr
      omega
    · simp only [Function.update_self, enter_self, List.length_append, List.length_singleton]
      exact hrest
  · have hheard : ∀ q, enter s.heard (s.client t).round t (s.heard (s.client t).round t ++ [m]) q u =
        s.heard q u := fun q => enter_other hut
    refine ⟨hside.said, hside.ahead, hside.le, ?_, ?_, ?_, ?_, ?_, ?_, hside.up, ?_⟩
    all_goals simp only [hheard, Function.update_of_ne hut]
    · exact hside.past
    · exact hside.now
    · exact hside.short
    · exact hside.later
    · exact hside.here
    · exact hside.front
    · exact hside.down

include hs

lemma State.Inv.pass (hlast : (s.heard (s.client t).round t).length + 1 = c.expected (s.client t).round) :
    State.Inv { s with
      down := Function.update s.down t rest
      client := Function.update s.client t ⟨(s.client t).round + 1, false⟩
      heard := enter s.heard (s.client t).round t (s.heard (s.client t).round t ++ [m]) } c := by
  obtain ⟨hle, hlength, hget, hrest⟩ := h.next_message ht hlt hd
  have hnext := h.heard_next ht hlt hd
  rw [hlast, ← hlength, List.take_length] at hnext
  refine ⟨h.le, h.early, h.msgs, h.started, h.given_le, fun u hu => ?_⟩
  have hside := h.side u hu
  by_cases hut : u = t
  · subst hut
    have hnil : s.heard ((s.client u).round + 1) u = [] := hside.later _ (Nat.lt_succ_self _)
    have hother : ∀ q, q ≠ (s.client u).round →
        enter s.heard (s.client u).round u (s.heard (s.client u).round u ++ [m]) q u = s.heard q u :=
      fun q hq => congrFun (enter_of_ne hq) u
    constructor
    all_goals simp only [Function.update_self]
    · intro q
      rw [hside.said q]
      refine and_congr_right fun hcq => ?_
      constructor
      · rintro (hq | ⟨rfl, -⟩)
        · exact .inl (by omega)
        · exact .inl (Nat.lt_succ_self _)
      · rintro (hq | ⟨-, hx⟩)
        · rcases Nat.lt_or_eq_of_le (Nat.le_of_lt_succ hq) with hq | rfl
          · exact .inl hq
          · exact .inr ⟨rfl, hs hcq⟩
        · cases hx
    · exact Nat.succ_le_succ hle
    · exact hlt
    · intro q hq
      rcases Nat.lt_or_eq_of_le (Nat.le_of_lt_succ hq) with hq | rfl
      · rw [hother q (Nat.ne_of_lt hq)]
        exact hside.past q hq
      · rw [enter_self]
        exact ⟨hnext, hlength⟩
    · rw [hother _ (Nat.succ_ne_self _), hnil]
      rfl
    · intro hlt'
      rw [hother _ (Nat.succ_ne_self _), hnil]
      exact expected_pos hu hlt'
    · intro q hq
      rw [hother q (by omega)]
      exact hside.later q (by omega)
    · intro _
      rw [hother _ (Nat.succ_ne_self _), hnil]
      exact Nat.zero_le _
    · intro hr
      have hat : (s.client u).round = s.server.round := Nat.succ.inj hr
      have hbetween := hside.down hle
      rw [hd, hat, Nat.sub_self, between, ← hat] at hbetween
      have hgiven : (s.heard (s.client u).round u).length < s.server.given u := by
        by_contra hge
        have hnone : ((s.shared c (s.client u).round).take (s.server.given u)).drop
            (s.heard (s.client u).round u).length = [] := by
          rw [List.drop_eq_nil_iff, List.length_take]
          omega
        rw [hnone] at hbetween
        cases hbetween
      have hgiven_le := h.given_le u hu
      have hall : s.server.given u = (s.shared c s.server.round).length := by
        rw [← hat] at hgiven_le ⊢
        omega
      refine ⟨by rw [hother _ (Nat.succ_ne_self _), hnil], ?_, hall, h.started u hu (by omega)⟩
      rw [hrest, hat, Nat.sub_self, between, ← hat, hlast, ← hlength, List.drop_eq_nil_iff, List.length_take]
      exact Nat.min_le_right _ _
    · exact hside.up
    · intro hr
      have hj : s.server.round - (s.client u).round = s.server.round - ((s.client u).round + 1) + 1 := by
        have hr' : (s.client u).round + 1 ≤ s.server.round := hr
        omega
      rw [hother _ (Nat.succ_ne_self _), hnil, hrest, hj, between, hlast, ← hlength, List.drop_length]
      rfl
  · have hheard : ∀ q, enter s.heard (s.client t).round t (s.heard (s.client t).round t ++ [m]) q u =
        s.heard q u := fun q => enter_other hut
    constructor
    all_goals simp only [hheard, Function.update_of_ne hut]
    · exact hside.said
    · exact hside.ahead
    · exact hside.le
    · exact hside.past
    · exact hside.now
    · exact hside.short
    · exact hside.later
    · exact hside.here
    · exact hside.front
    · exact hside.up
    · exact hside.down

end Recv

lemma State.Inv.step (h : s.Inv c) (hs : Step c s a s') : s'.Inv c := by
  cases hs with
  | send ht hc hsent => exact h.send ht hc hsent
  | recv ht hlt hsent hd hmore => exact h.recv ht hlt hd hmore
  | pass ht hlt hsent hd hlast => exact h.pass ht hlt hsent hd hlast
  | collect ht hc hm hup => exact h.collect ht hc hm hup
  | give ht hready hm => exact h.give ht hready hm
  | turn hlt hready hall => exact h.turn hlt hready hall

lemma inv_of_reachable (h : (machine c).Reachable s) : s.Inv c := by
  apply h.invariant (I := fun s => s.Inv c)
  · intro s hs
    rw [hs]
    exact Inv.initial
  · intro s a s' hi hs
    exact hi.step (step_cases hs)

/-! ### Every run -/

/-- A client that has passed a round has what every client said in it. -/
lemma State.Inv.passed (h : s.Inv c) (ht : t ∈ c.clients) (hq : q < (s.client t).round) :
    (c.collects q = true → ∀ u ∈ c.clients, s.said q u ≠ none) ∧ s.heard q t = c.messages q (s.said q) := by
  have hside := h.side t ht
  refine ⟨fun hc => ?_, (hside.past q hq).1⟩
  have hahead := hside.ahead
  by_cases hlt : q < s.server.round
  · exact h.early q hlt hc
  · have hat : q = s.server.round := by omega
    subst hat
    intro u hu
    obtain ⟨m, hm⟩ := Option.ne_none_iff_exists'.mp ((hside.front (by omega)).2.2.2 hc u hu)
    rw [(h.msgs u hu m hm).1]
    exact Option.some_ne_none m

/-- Nobody has passed a round that some client has yet to come to, and every round that a client has passed
has given it the messages of all clients, in the order of the clients. -/
theorem rounds_agree (h : (machine c).Reachable s) (ht : t ∈ c.clients) (hq : q < (s.client t).round) :
    (c.collects q = true → ∀ u ∈ c.clients, s.said q u ≠ none) ∧ s.heard q t = c.messages q (s.said q) := by
  apply State.Inv.passed
  · exact inv_of_reachable h
  · exact ht
  · exact hq

/-- Two clients, every kind of round. -/
def pair : Config Bool ℕ := ⟨[false, true], [.reduce, .pointer, .barrier], 0, 7⟩

/-- The first client is at the barrier when the second has yet to receive anything. -/
def pairActs : List (Act Bool ℕ) :=
  [.send true 20, .send false 10, .collect false, .collect true, .give true, .give false, .recv false,
    .give false, .give true, .turn, .give false, .recv false, .give true, .turn, .recv false, .send false 1]

def pairRun : (machine pair).Run := .ofActs _ initial pairActs rfl (by decide +kernel)

theorem rounds_agree_pair : (pairRun.state pairRun.len).heard 0 false = [10, 20] ∧
    ((pairRun.state pairRun.len).client true).round = 0 := by
  have hall := rounds_agree (pairRun.reachable _ (Nat.le_refl _)) (t := false) (q := 0) (by decide) (by decide +kernel)
  refine ⟨hall.2.trans ?_, by decide +kernel⟩
  decide +kernel

/-- Every client and the server are through. -/
def State.Finished (c : Config C M) (s : State C M) : Prop :=
  s.server.round = c.script.length ∧ ∀ t ∈ c.clients, (s.client t).round = c.script.length

lemma between_ne_nil (hn : n < (D r).length) (hg : j = 0 → n < g) : between D g j r n ≠ [] := by
  cases j with
  | zero =>
    rw [between, Ne, List.drop_eq_nil_iff, List.length_take]
    have hlt := hg rfl
    omega
  | succ j =>
    rw [between, List.drop_eq_getElem_cons hn]
    exact List.cons_ne_nil _ _

/-- A client that is behind the server has a message to receive. -/
lemma State.Inv.behind (h : s.Inv c) (ht : t ∈ c.clients) (hlt : (s.client t).round < s.server.round) :
    ∃ s', Bench.step c s (.recv t) = some s' := by
  have hside := h.side t ht
  have hlen := h.length_early hlt
  have hle := h.le
  have hshort := hside.short (by omega)
  have hne : s.down t ≠ [] := by
    rw [hside.down (Nat.le_of_lt hlt)]
    exact between_ne_nil (by omega) (by omega)
  obtain ⟨m, rest, hd⟩ := List.exists_cons_of_ne_nil hne
  have hsent : c.collects (s.client t).round = true → (s.client t).sent = true := by
    intro hc
    obtain ⟨-, hq | ⟨-, hsent⟩⟩ := (hside.said _).mp (h.early _ hlt hc t ht)
    · exact absurd hq (Nat.lt_irrefl _)
    · exact hsent
  simp only [Bench.step, hd]
  rw [if_pos ⟨ht, by omega, hsent⟩]
  exact ⟨_, rfl⟩

/-- A client whose message the server waits for can send it, or it has arrived. -/
lemma State.Inv.awaited (h : s.Inv c) (ht : t ∈ c.clients) (hc : c.collects s.server.round = true)
    (hm : s.server.msgs t = none) : ∃ a s', Bench.step c s a = some s' := by
  have hside := h.side t ht
  by_cases hup : s.up t = []
  · have hround : (s.client t).round ≤ s.server.round := by
      by_contra hgt
      have hahead := hside.ahead
      exact (hside.front (by omega)).2.2.2 hc t ht hm
    rcases Nat.lt_or_eq_of_le hround with hlt | heq
    · obtain ⟨s', hs'⟩ := h.behind ht hlt
      exact ⟨_, s', hs'⟩
    · have hsaid : s.said s.server.round t = none := by
        by_contra hne
        obtain ⟨m, hsome⟩ := Option.ne_none_iff_exists'.mp hne
        have hold := hside.up
        rw [hup, if_pos hm, hsome] at hold
        cases hold
      have hsent : (s.client t).sent = false := by
        by_contra hne
        refine (hside.said _).mpr ⟨hc, .inr ⟨heq.symm, ?_⟩⟩ hsaid
        simpa using hne
      refine ⟨.send t c.ack, ?_⟩
      simp only [Bench.step]
      rw [if_pos ⟨ht, by rwa [heq], hsent⟩]
      exact ⟨_, rfl⟩
  · obtain ⟨m, rest, hcons⟩ := List.exists_cons_of_ne_nil hup
    refine ⟨.collect t, ?_⟩
    simp only [Bench.step, hcons]
    rw [if_pos ⟨ht, hc, hm⟩]
    exact ⟨_, rfl⟩

/-- The client that has been sent the fewest messages. -/
lemma exists_least (f : C → ℕ) {l : List C} (hl : l ≠ []) : ∃ t ∈ l, ∀ u ∈ l, f t ≤ f u := by
  induction l with
  | nil => exact absurd rfl hl
  | cons t l ih =>
    by_cases hnil : l = []
    · refine ⟨t, List.mem_cons_self, fun u hu => ?_⟩
      rw [hnil, List.mem_singleton] at hu
      simp only [hu, Nat.le_refl]
    · obtain ⟨v, hv, hleast⟩ := ih hnil
      by_cases htv : f t ≤ f v
      · refine ⟨t, List.mem_cons_self, fun u hu => ?_⟩
        rcases List.mem_cons.mp hu with rfl | hu
        · exact Nat.le_refl _
        · exact Nat.le_trans htv (hleast u hu)
      · refine ⟨v, List.mem_cons_of_mem t hv, fun u hu => ?_⟩
        rcases List.mem_cons.mp hu with rfl | hu
        · omega
        · exact hleast u hu

/-- No run gets stuck before the end of the last round. -/
theorem finished_or_steps (h : (machine c).Reachable s) : s.Finished c ∨ ∃ a s', step c s a = some s' := by
  have hinv := inv_of_reachable h
  rcases Nat.lt_or_eq_of_le hinv.le with hlt | heq
  · right
    by_cases hready : s.server.Ready c
    · have hshared := hinv.messages_eq hready
      by_cases hall : ∀ u ∈ c.clients, s.server.given u = (c.messages s.server.round s.server.msgs).length
      · refine ⟨.turn, ?_⟩
        simp only [step]
        rw [if_pos ⟨hlt, hready, hall⟩]
        exact ⟨_, rfl⟩
      · simp only [not_forall] at hall
        obtain ⟨u, hu, hne⟩ := hall
        obtain ⟨t, ht, hleast⟩ := exists_least s.server.given (List.ne_nil_of_mem hu)
        have hle := hinv.given_le u hu
        rw [← hshared] at hle
        have htu := hleast u hu
        have hget : s.server.given t < (c.messages s.server.round s.server.msgs).length := by omega
        refine ⟨.give t, ?_⟩
        simp only [step, List.getElem?_eq_getElem hget]
        rw [if_pos ⟨ht, hready, hleast⟩]
        exact ⟨_, rfl⟩
    · simp only [Server.Ready, not_forall, not_not] at hready
      obtain ⟨hc, t, ht, hm⟩ := hready
      exact hinv.awaited ht hc hm
  · by_cases hall : ∀ t ∈ c.clients, (s.client t).round = c.script.length
    · exact .inl ⟨heq, hall⟩
    · right
      simp only [not_forall] at hall
      obtain ⟨t, ht, hne⟩ := hall
      have hle := (hinv.side t ht).le
      obtain ⟨s', hs'⟩ := hinv.behind ht (by omega)
      exact ⟨_, s', hs'⟩

theorem finished_or_steps_pair : (pairRun.state pairRun.len).Finished pair ∨
    ∃ a s', step pair (pairRun.state pairRun.len) a = some s' :=
  finished_or_steps (pairRun.reachable _ (Nat.le_refl _))

end ObjectCache.Bench
