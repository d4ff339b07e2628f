import ObjectCache.Cache.Coherent

/-! Reads in a run of the coherence protocol, and its states at rest. -/

namespace ObjectCache.Cache.Coherence

open Lib

set_option linter.unusedSectionVars false

variable {T V : Type} [DecidableEq T] {c : Config T}

abbrev Run (c : Config T) (V : Type) := (machine c V).Run

/-- At position `i` thread `t` writes the owner's copy of `p`. -/
def OwnerWrite (r : Run c V) (i : ℕ) (t : T) (p : Ptr) : Prop :=
  i < r.len ∧ r.act i = .next t ∧ ∃ v more, (r.state i).pc t = .store p v more

/-- At position `i` the call of thread `t` returns. -/
def Returns (r : Run c V) (i : ℕ) (t : T) (result : Option V) : Prop :=
  i < r.len ∧ r.act i = .next t ∧ ∃ p, (r.state i).pc t = .done p result

/-- `Settled r p b k`: the state at `k` is the first of the run, or the one after the owner write
of a `Write` or `Invalidate` of `p` that has returned before position `b`. -/
inductive Settled (r : Run c V) (p : Ptr) (b : ℕ) : ℕ → Prop
  | start : Settled r p b 0
  | update {t a e} : OwnerWrite r a t p → a < e → e < b → (∃ o, Returns r e t o) →
      (∀ j, a < j → j < e → ∀ o, ¬ Returns r j t o) → Settled r p b (a + 1)

/-- The values the owner has held at `p` in the states from `k` to `i`. -/
def recent (r : Run c V) (p : Ptr) (k i : ℕ) : Set V :=
  {v | ∃ m, k ≤ m ∧ m ≤ i ∧ (r.state m).owner p = v}

lemma recent_mono (r : Run c V) (p : Ptr) {k i j : ℕ} (h : i ≤ j) :
    recent r p k i ⊆ recent r p k j := fun _ ⟨m, hk, hi, hv⟩ => ⟨m, hk, hi.trans h, hv⟩

lemma owner_mem_recent (r : Run c V) (p : Ptr) {k i : ℕ} (h : k ≤ i) :
    (r.state i).owner p ∈ recent r p k i := ⟨i, h, le_rfl, rfl⟩

lemma run_inv (r : Run c V) : ∀ i ≤ r.len, Inv (r.state i) := fun i hi =>
  (r.reachable i hi).invariant (I := Inv) (fun _ => inv_initial)
    fun _ _ _ h hs => inv_step h (step_cases hs)

/-! ### A write or invalidation clears every node -/

/-- The nodes a `Write` or `Invalidate` of `p` at `pc` has already dealt with. -/
def Pc.cleared (home : Fin c.nodes) (p : Ptr) : Pc c.nodes V → Option (Set (Fin c.nodes))
  | .store q _ _ | .lockInvalidate q | .compareInvalidate q | .orLoad q | .orStore q _ =>
    if q = p then some ∅ else none
  | .unlockInvalidate q => if q = p then some {home} else none
  | .casPeers q left => if q = p then some {n | n ∉ left} else none
  | .done q none => if q = p then some Set.univ else none
  | _ => none

/-- Thread `t` is in an update of `p` and has cleared the nodes it has dealt with. -/
def Clearing (R : Set V) (s : State c V) (t : T) (p : Ptr) : Prop :=
  ∃ done, (s.pc t).cleared (c.home t) p = some done ∧ ∀ n ∈ done, Clean R s p n

/-- The thread that acts. -/
def Act.thread : Act c V → T
  | .begin t _ | .next t | .cas t _ => t

lemma pc_other {s s' : State c V} {a : Act c V} {t : T} (h : Stepped s a s') (ht : a.thread ≠ t) :
    s'.pc t = s.pc t := by
  cases h <;> exact Function.update_of_ne ht.symm _ _

lemma clean_cas {R : Set V} {s : State c V} {t : T} {n : Fin c.nodes} {p : Ptr}
    {pc : Pc c.nodes V} : Clean R ((s.setLine n p ((s.line n p).cas p)).setPc t pc) p n := by
  intro ha
  rw [State.setPc_line, State.setLine_line_of ⟨rfl, rfl⟩] at ha
  unfold CacheLine.cas at ha
  split_ifs at ha with h
  · exact absurd ha (markPtr_ne _ p)
  · exact absurd ha h

lemma mem_remoteCaches {n m : Fin c.nodes} : n ∈ c.remoteCaches m ↔ n ≠ m := by
  simp [Config.remoteCaches]

lemma clean_of_address {R : Set V} {s : State c V} {p : Ptr} {n : Fin c.nodes}
    (h : (s.line n p).address ≠ p.raw) : Clean R s p n := fun ha => absurd ha h

/-- The accesses of an update to its own node's line. -/
lemma clearing_line {R : Set V} {s : State c V} {t : T} {p q : Ptr} {l : CacheLine T V}
    {pc : Pc c.nodes V} {done : Set (Fin c.nodes)} (hq : (s.pc t).ptr = some q)
    (hd : (s.pc t).cleared (c.home t) p = some done)
    (hl : localStep c t s.owner (s.line (c.home t) q) (s.pc t) = some (l, pc))
    (hstay : ∀ n ∈ done, Clean R ((s.setLine (c.home t) q l).setPc t pc) p n)
    (hret : ∀ q o, s.pc t ≠ .done q o) :
    Clearing R ((s.setLine (c.home t) q l).setPc t pc) t p := by
  unfold Clearing
  rw [State.setPc_pc, Function.update_self]
  generalize hpc : s.pc t = pc₀ at *
  cases pc₀ <;> simp only [Pc.cleared, reduceCtorEq] at hd
  case store => cases hl
  case lockInvalidate =>
    split_ifs at hd with hp
    obtain ⟨mu, -, hl⟩ := Option.map_eq_some_iff.mp hl
    cases hl
    exact ⟨∅, by simp [Pc.cleared, hp], by simp⟩
  case compareInvalidate =>
    split_ifs at hd with hp
    cases hl
    cases hq
    subst hp
    split_ifs with ha
    · exact ⟨∅, by simp [Pc.cleared], by simp⟩
    · refine ⟨{c.home t}, by simp [Pc.cleared], ?_⟩
      rintro n rfl
      refine clean_of_address fun h => ha ?_
      rw [State.setPc_line, State.setLine_line_of ⟨rfl, rfl⟩] at h
      rw [h, Ptr.unmarkPtr_raw]
  case orLoad =>
    split_ifs at hd with hp
    cases hl
    exact ⟨∅, by simp [Pc.cleared, hp], by simp⟩
  case orStore =>
    split_ifs at hd with hp
    cases hl
    cases hq
    subst hp
    refine ⟨{c.home t}, by simp [Pc.cleared], ?_⟩
    rintro n rfl
    refine clean_of_address ?_
    rw [State.setPc_line, State.setLine_line_of ⟨rfl, rfl⟩]
    exact markPtr_ne _ _
  case unlockInvalidate =>
    split_ifs at hd with hp
    cases hl
    cases hd
    refine ⟨{n | n ∉ c.remoteCaches (c.home t)}, by simp [Pc.cleared, hp], fun n hn => ?_⟩
    refine hstay n ?_
    simpa [mem_remoteCaches] using hn
  case casPeers _ left =>
    split_ifs at hd with hp
    cases left <;> cases hl
    cases hd
    exact ⟨Set.univ, by simp [Pc.cleared, hp], fun n _ => hstay n (by simp)⟩
  case done q o => exact absurd rfl (hret q o)

theorem clearing_step {R : Set V} {s s' : State c V} {a : Act c V} {t : T} {p : Ptr} (hi : Inv s)
    (hR : s.owner p ∈ R) (h : Clearing R s t p) (hs : Stepped s a s')
    (hret : ¬ (a = .next t ∧ ∃ q o, s.pc t = .done q o)) : Clearing R s' t p := by
  obtain ⟨done, hd, hc⟩ := h
  have hstay : ∀ n ∈ done, Clean R s' p n := fun n hn => clean_step hi hR (hc n hn) hs
  by_cases ht : a.thread = t
  · subst ht
    cases hs with
    | @begin t op pc ht _ => simp [Act.thread, ht, Pc.cleared] at hd
    | @store t q v more ht =>
      simp only [Act.thread, ht, Pc.cleared] at hd
      split_ifs at hd with hp
      refine ⟨∅, ?_, by simp⟩
      simp only [State.setPc_pc, Act.thread, Function.update_self]
      cases more <;> simp [Pc.cleared, hp]
    | @line t q l pc hq hl =>
      exact clearing_line hq hd hl hstay fun q o ho => hret ⟨rfl, q, o, ho⟩
    | @cas t n q left ht hn =>
      simp only [Act.thread, ht, Pc.cleared] at hd
      split_ifs at hd with hp
      cases hd
      subst hp
      refine ⟨{m | m ∉ left.erase n}, by simp [Act.thread, Pc.cleared], fun m hm => ?_⟩
      by_cases hmn : m = n
      · subst hmn
        exact clean_cas
      · exact hstay m (by simpa [List.mem_erase_of_ne hmn] using hm)
  · exact ⟨done, by rw [pc_other hs ht]; exact hd, hstay⟩

/-! ### Reads after it -/

/-- What a thread has in hand for a read of `p` lies in `R`. -/
def Pc.fresh {N : ℕ} (R : Set V) (p : Ptr) (data : Option V) : Pc N V → Prop
  | .lockShared q _ | .compare q _ | .testBit q _ | .testPriority q _ | .unlockBypass q
  | .bypass q | .original q _ | .unlockMiss q _ _ _ | .lock q _ _ _ | .recheck q _ _ _
  | .unlockRetry q _ | .clearLoad q _ | .clearStore q _ _ | .swap q _ | .fetch q _ _ => q = p
  | .hit q => q = p ∧ ∃ v ∈ R, data = some v
  | .install q _ _ v | .unlockFill q v => q = p ∧ v ∈ R
  | .unlockHit q o | .done q o => q = p ∧ ∃ v ∈ R, o = some v
  | _ => False

def Fresh (R : Set V) (s : State c V) (t : T) (p : Ptr) : Prop :=
  (s.pc t).fresh R p (s.line (c.home t) p).data

lemma Pc.fresh_ptr {N : ℕ} {R : Set V} {p : Ptr} {data : Option V} {pc : Pc N V}
    (h : pc.fresh R p data) : pc.ptr = some p := by
  cases pc <;> simp_all [Pc.fresh, Pc.ptr]

lemma Pc.fresh_data {N : ℕ} {R : Set V} {p : Ptr} {data data' : Option V} {pc : Pc N V}
    (h : pc.fresh R p data) (hd : pc.shared → data' = data) : pc.fresh R p data' := by
  cases pc with
  | hit q => rw [hd rfl]; exact h
  | _ => exact h

lemma Pc.fresh_mono {N : ℕ} {R R' : Set V} (hR : R ⊆ R') {p : Ptr} {data : Option V} {pc : Pc N V}
    (h : pc.fresh R p data) : pc.fresh R' p data := by
  have hex : ∀ {o : Option V}, (∃ v ∈ R, o = some v) → ∃ v ∈ R', o = some v := by
    rintro o ⟨v, hv, ho⟩
    exact ⟨v, hR hv, ho⟩
  cases pc with
  | hit | unlockHit | done => exact ⟨h.1, hex h.2⟩
  | install | unlockFill => exact ⟨h.1, hR h.2⟩
  | _ => exact h

lemma fresh_localStep {R : Set V} {t : T} {owner : Ptr → V} {l l' : CacheLine T V} {p : Ptr}
    {pc pc' : Pc c.nodes V} {f : T → Pc c.nodes V} (ho : Ok t l p pc)
    (hl : localStep c t owner l pc = some (l', pc')) (hR : owner p ∈ R)
    (hc : l.address = p.raw → Served R l.data (l.mu.writer.map f))
    (h : pc.fresh R p l.data) (hret : ∀ q o, pc ≠ .done q o) : pc'.fresh R p l'.data := by
  cases pc with
  | idle | store | lockInvalidate | compareInvalidate | orLoad | orStore | unlockInvalidate
  | casPeers => exact h.elim
  | done q o => exact absurd rfl (hret q o)
  | lockShared | lock =>
    obtain ⟨mu, -, hl⟩ := Option.map_eq_some_iff.mp hl
    cases hl
    exact h
  | compare | testPriority =>
    cases hl
    split_ifs <;> exact h
  | recheck q k miss o =>
    cases hl
    cases miss <;> split_ifs <;> exact h
  | testBit q k =>
    cases hl
    obtain rfl : q = p := h
    split_ifs with hm
    · exact rfl
    · -- the bit is clear and no writer can be inside: the line serves a value of `R`
      have ha : l.address = q.raw := by
        rw [← ho.address rfl]
        exact (unmarkPtr_of_not_isMarked (by simpa using hm)).symm
      have hs := hc ha
      cases hw : l.mu.writer with
      | none =>
        rw [hw] at hs
        exact ⟨rfl, hs⟩
      | some u => exact absurd (ho.reader rfl) (SharedMutex.not_reader_of_writer hw)
  | hit =>
    obtain ⟨-, hl⟩ := Option.ite_none_right_eq_some.mp hl
    cases hl
    exact h
  | bypass q =>
    cases hl
    obtain rfl : q = p := h
    exact ⟨rfl, _, hR, rfl⟩
  | fetch q =>
    cases hl
    obtain rfl : q = p := h
    exact ⟨rfl, hR⟩
  | install q k miss v =>
    cases miss with
    | coherence =>
      obtain ⟨-, hl⟩ := Option.ite_none_right_eq_some.mp hl
      cases hl
      exact h
    | conflict =>
      cases hl
      exact h
  | unlockFill =>
    cases hl
    exact ⟨h.1, _, h.2, rfl⟩
  | unlockHit | unlockBypass | original | unlockMiss | unlockRetry | clearLoad | clearStore
  | swap =>
    cases hl
    exact h

lemma data_other {s s' : State c V} {a : Act c V} {t : T} {p : Ptr} (hi : Inv s)
    (hs : Stepped s a s') (ht : a.thread ≠ t) (hp : (s.pc t).ptr = some p) (hx : (s.pc t).shared) :
    (s'.line (c.home t) p).data = (s.line (c.home t) p).data := by
  cases hs with
  | begin | store => rfl
  | @line u q l pc hq hl =>
    rw [State.setPc_line]
    by_cases h : c.home t = c.home u ∧ hash c.geometry p = hash c.geometry q
    · rw [State.setLine_line_of h, line_congr h]
      refine ((effect_localStep (hi.ok u q hq) hl).fields fun hw => ?_).2
      have hr := (hi.ok t p hp).reader hx
      rw [line_congr h] at hr
      exact SharedMutex.not_reader_of_writer hw hr
    · rw [State.setLine_line_of_not h]
  | @cas u n q left _ _ =>
    rw [State.setPc_line]
    by_cases h : c.home t = n ∧ hash c.geometry p = hash c.geometry q
    · rw [State.setLine_line_of h, line_congr h, cas_data]
    · rw [State.setLine_line_of_not h]

theorem fresh_step {R : Set V} {s s' : State c V} {a : Act c V} {t : T} {p : Ptr} (hi : Inv s)
    (hR : s.owner p ∈ R) (hc : Clean R s p (c.home t)) (h : Fresh R s t p) (hs : Stepped s a s')
    (hret : ¬ (a = .next t ∧ ∃ q o, s.pc t = .done q o)) : Fresh R s' t p := by
  have hp := Pc.fresh_ptr h
  by_cases ht : a.thread = t
  · subst ht
    cases hs with
    | @begin t op pc ht _ => simp [Act.thread, ht, Pc.ptr] at hp
    | @store t q v more ht => simp [Fresh, Act.thread, ht, Pc.fresh] at h
    | @line t q l pc hq hl =>
      obtain rfl : q = p := Option.some.inj (hq.symm.trans hp)
      unfold Fresh
      simp only [Act.thread, State.setPc_pc, Function.update_self, State.setPc_line]
      rw [State.setLine_line_of ⟨rfl, rfl⟩]
      exact fresh_localStep (hi.ok t q hq) hl hR hc h fun q' o ho => hret ⟨rfl, q', o, ho⟩
    | @cas t n q left ht _ => simp [Fresh, Act.thread, ht, Pc.fresh] at h
  · unfold Fresh
    rw [pc_other hs ht]
    exact Pc.fresh_data h fun hx => data_other hi hs ht hp hx

/-! ### Runs -/

variable (r : Run c V)

lemma run_step {i : ℕ} (hi : i < r.len) : Stepped (r.state i) (r.act i) (r.state (i + 1)) :=
  step_cases (r.next i hi)

/-- Once every node is clean it stays so, the owner's later values counted in. -/
lemma clean_from {p : Ptr} {k b : ℕ} (hkb : k ≤ b)
    (h : ∀ n, Clean (recent r p k b) (r.state b) p n) :
    ∀ i, b ≤ i → i ≤ r.len → ∀ n, Clean (recent r p k i) (r.state i) p n := by
  intro i hbi hi
  induction i, hbi using Nat.le_induction with
  | base => exact h
  | succ i hbi ih =>
    intro n
    have hc := clean_step (run_inv r i (by omega)) (owner_mem_recent r p (hkb.trans hbi))
      (ih (by omega) n) (run_step r (by omega))
    exact hc.mono (recent_mono r p (Nat.le_succ i))

lemma Clearing.mono {R R' : Set V} (hR : R ⊆ R') {s : State c V} {t : T} {p : Ptr}
    (h : Clearing R s t p) : Clearing R' s t p := by
  obtain ⟨done, hd, hc⟩ := h
  exact ⟨done, hd, fun n hn => (hc n hn).mono hR⟩

lemma cleared_store {s s' : State c V} {t : T} {p : Ptr} {v : V} {more : List V}
    (hpc : s.pc t = .store p v more) (hs : Stepped s (.next t) s') :
    (s'.pc t).cleared (c.home t) p = some ∅ := by
  cases hs with
  | @store _ q w more' ht =>
    obtain ⟨rfl, rfl, rfl⟩ : q = p ∧ w = v ∧ more' = more := by simpa using ht.symm.trans hpc
    cases more' <;> simp [Pc.cleared]
  | line hq hl =>
    rw [hpc] at hl
    cases hl

/-- From its owner write until it returns, an update is clearing nodes. -/
lemma clearing_from {p : Ptr} {t : T} {a e : ℕ} (ho : OwnerWrite r a t p) (he : e ≤ r.len)
    (hret : ∀ j, a < j → j < e → ∀ o, ¬ Returns r j t o) :
    ∀ i, a < i → i ≤ e → Clearing (recent r p (a + 1) i) (r.state i) t p := by
  obtain ⟨ha, hact, v, more, hpc⟩ := ho
  intro i hai hie
  induction i, hai using Nat.le_induction with
  | base =>
    have hs := run_step r ha
    rw [hact] at hs
    exact ⟨∅, cleared_store hpc hs, by simp⟩
  | succ i hai ih =>
    have hc := clearing_step (run_inv r i (by omega)) (owner_mem_recent r p hai) (ih (by omega))
      (run_step r (by omega)) (by
        rintro ⟨hact, q, o, hpc⟩
        exact hret i hai (by omega) o ⟨by omega, hact, q, hpc⟩)
    exact hc.mono (recent_mono r p (Nat.le_succ i))

/-- When an update has returned, no node serves a value older than its owner write. -/
lemma clean_returned {p : Ptr} {t : T} {a e : ℕ} (ho : OwnerWrite r a t p) (hae : a < e)
    (hr : ∃ o, Returns r e t o) (hret : ∀ j, a < j → j < e → ∀ o, ¬ Returns r j t o) :
    ∀ n, Clean (recent r p (a + 1) e) (r.state e) p n := by
  obtain ⟨o, he, -, q, hpc⟩ := hr
  obtain ⟨done, hd, hc⟩ := clearing_from r ho (by omega) hret e hae le_rfl
  cases o with
  | some v => simp [hpc, Pc.cleared] at hd
  | none =>
    simp only [hpc, Pc.cleared] at hd
    split_ifs at hd
    cases hd
    exact fun n => hc n trivial

lemma clean_start (p : Ptr) (n : Fin c.nodes) : Clean (recent r p 0 0) (r.state 0) p n := by
  intro ha
  have h0 := (r.start.1 n (hash c.geometry p)).1
  rw [State.line, h0] at ha
  exact absurd ha.symm p.nonnull

lemma settled_clean {p : Ptr} {k b : ℕ} (h : Settled r p b k) (hb : b ≤ r.len) :
    k ≤ b ∧ ∀ n, Clean (recent r p k b) (r.state b) p n := by
  cases h with
  | start => exact ⟨Nat.zero_le b, clean_from r le_rfl (clean_start r p) b (Nat.zero_le b) hb⟩
  | update ho hae heb hr hret =>
    exact ⟨by omega, clean_from r (by omega) (clean_returned r ho hae hr hret) b heb.le hb⟩

lemma owner_step {s s' : State c V} {a : Act c V} (p : Ptr) (h : Stepped s a s') :
    s'.owner p = s.owner p ∨ ∃ t v more, a = .next t ∧ s.pc t = .store p v more := by
  cases h with
  | begin | line | cas => exact .inl rfl
  | @store t q v more ht =>
    by_cases hq : p = q
    · subst hq
      exact .inr ⟨t, v, more, rfl, ht⟩
    · exact .inl (Function.update_of_ne hq _ _)

/-- The last write of the owner before a position, and the value kept since. -/
lemma last_write (p : Ptr) : ∀ i ≤ r.len, ∃ k ≤ i,
    (∀ m, k ≤ m → m ≤ i → (r.state m).owner p = (r.state i).owner p) ∧
    (k = 0 ∨ ∃ a t, k = a + 1 ∧ OwnerWrite r a t p) := by
  intro i
  induction i with
  | zero => exact fun _ => ⟨0, le_rfl, fun m _ hm => by rw [Nat.le_zero.mp hm], .inl rfl⟩
  | succ i ih =>
    intro hi
    by_cases hw : ∃ t, OwnerWrite r i t p
    · obtain ⟨t, hw⟩ := hw
      refine ⟨i + 1, le_rfl, fun m hm hm' => ?_, .inr ⟨i, t, rfl, hw⟩⟩
      rw [le_antisymm hm' hm]
    · obtain ⟨k, hk, hkeep, hlast⟩ := ih (by omega)
      have hsame : (r.state (i + 1)).owner p = (r.state i).owner p := by
        refine (owner_step p (run_step r (by omega))).resolve_right ?_
        rintro ⟨t, v, more, hact, hpc⟩
        exact hw ⟨t, by omega, hact, v, more, hpc⟩
      refine ⟨k, by omega, fun m hkm hm => ?_, hlast⟩
      rcases Nat.lt_or_ge i m with h | h
      · rw [show m = i + 1 by omega]
      · rw [hkeep m hkm h, hsame]

lemma fresh_from {p : Ptr} {t : T} {k b d : ℕ} {pr : ℤ} (hk : Settled r p b k) (hd : d ≤ r.len)
    (hb : b < d) (hact : r.act b = .begin t (.read p pr))
    (hret : ∀ j, b < j → j < d → ∀ o, ¬ Returns r j t o) :
    ∀ i, b < i → i ≤ d → Fresh (recent r p k i) (r.state i) t p := by
  obtain ⟨hkb, hclean⟩ := settled_clean r hk (by omega)
  intro i hbi hid
  induction i, hbi using Nat.le_induction with
  | base =>
    have hs := run_step r (show b < r.len by omega)
    rw [hact] at hs
    generalize r.state (b + 1) = s' at hs ⊢
    cases hs with
    | begin _ hop =>
      rcases hop with ⟨q, k', hop, rfl⟩ | ⟨q, v, vs, hop | hop, _⟩ <;> cases hop
      simp [Fresh, Pc.fresh]
  | succ i hbi ih =>
    have hc := clean_from r hkb hclean i (by omega) (by omega) (c.home t)
    have hf := fresh_step (run_inv r i (by omega)) (owner_mem_recent r p (by omega)) hc
      (ih (by omega)) (run_step r (by omega)) (by
        rintro ⟨hact, q, o, hpc⟩
        exact hret i hbi (by omega) o ⟨by omega, hact, q, hpc⟩)
    exact Pc.fresh_mono (recent_mono r p (Nat.le_succ i)) hf

/-- A thread at rest has finished every update it started. -/
lemma returned_of_idle {p : Ptr} {t : T} {a i : ℕ} (ho : OwnerWrite r a t p) (hai : a < i)
    (hi : i ≤ r.len) (hidle : (r.state i).pc t = .idle) :
    ∃ e, a < e ∧ e < i ∧ (∃ o, Returns r e t o) ∧ ∀ j, a < j → j < e → ∀ o, ¬ Returns r j t o := by
  classical
  have hex : ∃ e, a < e ∧ e < i ∧ ∃ o, Returns r e t o := by
    by_contra hno
    obtain ⟨done, hd, -⟩ := clearing_from r ho hi
      (fun j haj hji o hr => hno ⟨j, haj, hji, o, hr⟩) i hai le_rfl
    simp [hidle, Pc.cleared] at hd
  obtain ⟨hae, hei, hr⟩ := Nat.find_spec hex
  exact ⟨Nat.find hex, hae, hei, hr, fun j haj hje o hj =>
    Nat.find_min hex hje ⟨haj, hje.trans hei, o, hj⟩⟩

/-- A read returns a value the owner held no earlier than the owner write of any update that had
returned when the read began; at rest every exactly matching line holds the owner's value. -/
theorem coherent (c : Config T) (r : Run c V) :
    (∀ p t pr k b d o, Settled r p b k → b < d → r.act b = .begin t (.read p pr) →
      (∀ j, b < j → j < d → ∀ o, ¬ Returns r j t o) → Returns r d t o →
      ∃ m, k ≤ m ∧ m ≤ d ∧ o = some ((r.state m).owner p)) ∧
    (∀ i ≤ r.len, (∀ t, (r.state i).pc t = .idle) → ∀ n p,
      ((r.state i).line n p).address = p.raw →
        ((r.state i).line n p).data = some ((r.state i).owner p)) := by
  constructor
  · intro p t pr k b d o hk hbd hact hret hd
    have hf := fresh_from r hk (by have := hd.1; omega) hbd hact hret d hbd le_rfl
    obtain ⟨-, -, q, hpc⟩ := hd
    simp only [Fresh, hpc, Pc.fresh] at hf
    obtain ⟨-, v, ⟨m, hkm, hmd, hv⟩, ho⟩ := hf
    exact ⟨m, hkm, hmd, by rw [ho, hv]⟩
  · intro i hi hidle n p ha
    obtain ⟨k, hki, hkeep, hlast⟩ := last_write r p i hi
    have hs : Settled r p i k := by
      rcases hlast with rfl | ⟨a, t, rfl, ho⟩
      · exact .start
      · obtain ⟨e, hae, hei, hr, hret⟩ := returned_of_idle r ho (by omega) hi (hidle t)
        exact .update ho hae hei hr hret
    have hc := (settled_clean r hs hi).2 n ha
    have hv : ∃ v ∈ recent r p k i, ((r.state i).line n p).data = some v := by
      cases hw : ((r.state i).line n p).mu.writer with
      | none => simpa [hw, Served] using hc
      | some t => simpa [hw, Served, hidle t] using hc
    obtain ⟨v, ⟨m, hkm, hmi, rfl⟩, hd⟩ := hv
    rw [hd, hkeep m hkm hmi]

instance {T : Type} [Inhabited T] (c : Config T) (V : Type) : Inhabited (Act c V) := ⟨.next default⟩

/-! ### Two nodes, a reader and a writer -/

def pair : Config (Fin 2) where
  nodes := 2
  home := id
  geometry := ⟨2, fun _ => 0, id, fun _ => 0⟩
  size _ := 64

def emptyCaches : State pair ℕ where
  lines _ _ := ⟨0#64, .free, 2147483647, 0, none⟩
  owner _ := 0
  pc _ := .idle

/-- Thread 1 reads, thread 0 writes 7, thread 1 reads again. -/
def readWriteRead : List (Act pair ℕ) :=
  .begin 1 (.read .first 0) :: List.replicate 12 (.next 1) ++
  [.begin 0 (.write .first 7), .next 0, .next 0, .next 0, .next 0, .cas 0 (1 : Fin 2), .next 0,
    .next 0] ++
  .begin 1 (.read .first 0) :: List.replicate 12 (.next 1)

def readWriteReadRun : Run pair ℕ :=
  .ofActs (machine pair ℕ) emptyCaches readWriteRead
    ⟨fun _ _ => ⟨rfl, rfl, rfl, rfl⟩, fun _ => rfl⟩ (by decide)

def Pc.isDone {N : ℕ} : Pc N V → Bool
  | .done _ _ => true
  | _ => false

lemma not_returns {r : Run c V} {t : T} {i : ℕ} (h : ((r.state i).pc t).isDone = false)
    (o : Option V) : ¬ Returns r i t o := by
  rintro ⟨-, -, p, hp⟩
  rw [hp] at h
  cases h

theorem coherent_pair : ∃ m, 15 ≤ m ∧ m ≤ 33 ∧
    some 7 = some ((readWriteReadRun.state m).owner .first) := by
  have hwriter : ∀ j < 20, 14 < j → ((readWriteReadRun.state j).pc 0).isDone = false := by decide
  have hreader : ∀ j < 33, 21 < j → ((readWriteReadRun.state j).pc 1).isDone = false := by decide
  refine (coherent pair readWriteReadRun).1 .first 1 0 15 21 33 (some 7) ?_ (by decide) rfl
    (fun j h1 h2 => not_returns (hreader j h2 h1)) ⟨by decide, rfl, .first, rfl⟩
  exact .update ⟨by decide, rfl, 7, [], rfl⟩ (by decide) (by decide)
    ⟨none, by decide, rfl, .first, rfl⟩ fun j h1 h2 => not_returns (hwriter j h2 h1)

end ObjectCache.Cache.Coherence
