import ObjectCache.Cache.Coherence

/-! A completed write or invalidation leaves no older copy readable on any node. -/

namespace ObjectCache.Cache.Coherence

open Lib

set_option linter.unusedSectionVars false

variable {T V : Type} [DecidableEq T] {c : Config T}

def Pc.exclusive {N : ℕ} : Pc N V → Bool
  | .recheck _ _ _ _ | .unlockRetry _ _ | .clearLoad _ _ | .clearStore _ _ _ | .swap _ _
  | .fetch _ _ _ | .install _ _ _ _ | .unlockFill _ _ | .compareInvalidate _ | .orLoad _
  | .orStore _ _ | .unlockInvalidate _ => true
  | _ => false

def Pc.shared {N : ℕ} : Pc N V → Bool
  | .compare _ _ | .testBit _ _ | .hit _ | .unlockHit _ _ | .testPriority _ _ | .unlockBypass _
  | .original _ _ | .unlockMiss _ _ _ _ => true
  | _ => false

/-- The thread has seen its own pointer in the line and nobody can have replaced it since. -/
def Pc.matched {N : ℕ} : Pc N V → Bool
  | .testBit _ _ | .hit _ | .clearLoad _ _ | .clearStore _ _ _ | .fetch _ _ _ | .install _ _ _ _
  | .orLoad _ | .orStore _ _ => true
  | _ => false

/-- The addresses a thread carries in its registers name its own pointer. -/
def Pc.known {N : ℕ} : Pc N V → Prop
  | .unlockMiss p _ .coherence o | .lock p _ .coherence o | .recheck p _ .coherence o => o = p.raw
  | .clearStore p _ a | .orStore p a => unmarkPtr a = p.raw
  | _ => True

/-- What a thread at `pc` may rely on about the line of its pointer. -/
structure Ok (t : T) (l : CacheLine T V) (p : Ptr) (pc : Pc c.nodes V) : Prop where
  writer : l.mu.writer = some t ↔ pc.exclusive
  reader : pc.shared → t ∈ l.mu.readers
  address : pc.matched → unmarkPtr l.address = p.raw
  known : pc.known

structure Inv (s : State c V) : Prop where
  ok : ∀ t p, (s.pc t).ptr = some p → Ok t (s.line (c.home t) p) p (s.pc t)
  owned : ∀ n i t, (s.lines n i).mu.writer = some t →
    ∃ p, (s.pc t).ptr = some p ∧ (s.pc t).exclusive ∧ c.home t = n ∧ hash c.geometry p = i

/-- Everything a step can do. -/
inductive Stepped (s : State c V) : Act c V → State c V → Prop
  | begin {t op pc} : s.pc t = .idle →
      (∃ p k, op = .read p k ∧ pc = .lockShared p k) ∨
        (∃ p v vs, (op = .write p v ∨ op = .invalidate p v vs) ∧ ∃ ws, pc = .store p v ws) →
      Stepped s (.begin t op) (s.setPc t pc)
  | store {t p v more} : s.pc t = .store p v more →
      Stepped s (.next t) ({ s with owner := Function.update s.owner p v }.setPc t
        (match more with | [] => .lockInvalidate p | w :: ws => .store p w ws))
  | line {t p l pc} : (s.pc t).ptr = some p →
      localStep c t s.owner (s.line (c.home t) p) (s.pc t) = some (l, pc) →
      Stepped s (.next t) ((s.setLine (c.home t) p l).setPc t pc)
  | cas {t n p left} : s.pc t = .casPeers p left → n ∈ left →
      Stepped s (.cas t n)
        ((s.setLine n p ((s.line n p).cas p)).setPc t (.casPeers p (left.erase n)))

theorem step_cases {s s' : State c V} {a : Act c V} (h : step s a = some s') : Stepped s a s' := by
  cases a with
  | begin t op =>
    simp only [step] at h
    split at h <;> try cases h
    · exact .begin ‹_› (.inl ⟨_, _, rfl, rfl⟩)
    · exact .begin ‹_› (.inr ⟨_, _, [], .inl rfl, _, rfl⟩)
    · exact .begin ‹_› (.inr ⟨_, _, _, .inr rfl, _, rfl⟩)
  | next t =>
    simp only [step] at h
    split at h
    · rename_i p v more hpc
      have hs := Stepped.store hpc
      cases more <;> cases h <;> exact hs
    · simp only [Option.bind_eq_bind, Option.bind_eq_some_iff, Option.pure_def,
        Option.some.injEq] at h
      obtain ⟨p, hp, ⟨l, pc⟩, hl, rfl⟩ := h
      exact .line hp hl
  | cas t n =>
    simp only [step] at h
    split at h
    · split_ifs at h with hn
      cases h
      exact .cas ‹_› hn
    · cases h

/-- What one access changes about the lock, and that the other fields need the exclusive lock. -/
structure Effect (t : T) (l l' : CacheLine T V) : Prop where
  writer : ∀ u ≠ t, l'.mu.writer = some u ↔ l.mu.writer = some u
  reader : ∀ u ≠ t, u ∈ l.mu.readers → u ∈ l'.mu.readers
  fields : l.mu.writer ≠ some t → l'.address = l.address ∧ l'.data = l.data

namespace Effect

variable {t : T} {l l' : CacheLine T V}

lemma refl : Effect t l l := ⟨fun _ _ => .rfl, fun _ _ h => h, fun _ => ⟨rfl, rfl⟩⟩

lemma write (hw : l.mu.writer = some t) (hm : l'.mu = l.mu) : Effect t l l' :=
  ⟨fun _ _ => by rw [hm], fun _ _ h => by rwa [hm], fun h => absurd hw h⟩

lemma lockShared {mu : SharedMutex T} (hm : l.mu.lockShared t = some mu) :
    Effect t l { l with mu } := by
  obtain ⟨hw, hw', hr⟩ := SharedMutex.lockShared_eq_some.mp hm
  exact ⟨fun _ _ => by simp [hw, hw'], fun _ _ h => by simp [hr, h],
    fun _ => ⟨rfl, rfl⟩⟩

lemma unlockShared : Effect t l { l with mu := l.mu.unlockShared t } :=
  ⟨fun _ _ => by simp, fun _ hu h => by simp [hu, h], fun _ => ⟨rfl, rfl⟩⟩

lemma lock {mu : SharedMutex T} (hm : l.mu.lock t = some mu) : Effect t l { l with mu } := by
  obtain ⟨hw, hr, hw', -⟩ := SharedMutex.lock_eq_some.mp hm
  exact ⟨fun _ hu => by simp [hw, hw', hu.symm], fun _ _ h => by simp [hr] at h,
    fun _ => ⟨rfl, rfl⟩⟩

lemma unlock (hw : l.mu.writer = some t) : Effect t l { l with mu := l.mu.unlock } :=
  ⟨fun _ hu => by simp [hw, hu.symm], fun _ _ h => by simpa using h,
    fun _ => ⟨rfl, rfl⟩⟩

end Effect

section Local

variable {t : T} {owner : Ptr → V} {l l' : CacheLine T V} {p : Ptr} {pc pc' : Pc c.nodes V}

lemma effect_localStep (ho : Ok t l p pc) (hs : localStep c t owner l pc = some (l', pc')) :
    Effect t l l' := by
  have hw := ho.writer
  cases pc with
  | idle | store => cases hs
  | compare | testBit | testPriority | bypass | original | recheck | clearLoad | fetch
  | compareInvalidate | orLoad | done =>
    cases hs
    exact .refl
  | hit =>
    obtain ⟨-, hs⟩ := Option.ite_none_right_eq_some.mp hs
    cases hs
    exact .refl
  | casPeers p left =>
    cases left <;> cases hs
    exact .refl
  | lockShared =>
    obtain ⟨mu, hm, hs⟩ := Option.map_eq_some_iff.mp hs
    cases hs
    exact .lockShared hm
  | unlockHit | unlockBypass | unlockMiss =>
    cases hs
    exact .unlockShared
  | lock | lockInvalidate =>
    obtain ⟨mu, hm, hs⟩ := Option.map_eq_some_iff.mp hs
    cases hs
    exact .lock hm
  | unlockRetry | unlockFill | unlockInvalidate =>
    cases hs
    exact .unlock (hw.mpr rfl)
  | clearStore | swap | orStore =>
    cases hs
    exact .write (hw.mpr rfl) rfl
  | install p k miss v =>
    cases miss with
    | coherence =>
      obtain ⟨-, hs⟩ := Option.ite_none_right_eq_some.mp hs
      cases hs
      exact .write (hw.mpr rfl) rfl
    | conflict =>
      cases hs
      exact .write (hw.mpr rfl) rfl

lemma ptr_localStep (hp : pc.ptr = some p) (hs : localStep c t owner l pc = some (l', pc')) :
    pc' = .idle ∨ pc'.ptr = some p := by
  cases pc with
  | recheck _ _ miss | install _ _ miss => cases miss <;> grind [localStep, Pc.ptr]
  | casPeers _ left => cases left <;> grind [localStep, Pc.ptr]
  | _ => grind [localStep, Pc.ptr, Option.map_eq_some_iff]

lemma ok_localStep (ho : Ok t l p pc) (hp : pc.ptr = some p)
    (hs : localStep c t owner l pc = some (l', pc')) : Ok t l' p pc' := by
  obtain ⟨hw, hr, ha, hk⟩ := ho
  cases pc with
  | idle | store => cases hs
  | lockShared q k =>
    obtain ⟨mu, hm, hs⟩ := Option.map_eq_some_iff.mp hs
    cases hs
    obtain ⟨-, hmw, hmr⟩ := SharedMutex.lockShared_eq_some.mp hm
    exact ⟨by simp [hmw, Pc.exclusive], fun _ => by simp [hmr], nofun, trivial⟩
  | compare q k =>
    cases hs
    cases hp
    split_ifs with h
    · exact ⟨hw, hr, fun _ => h, trivial⟩
    · exact ⟨hw, hr, nofun, trivial⟩
  | testBit q k =>
    cases hs
    cases hp
    split_ifs
    · exact ⟨hw, hr, nofun, ha rfl⟩
    · exact ⟨hw, hr, ha, trivial⟩
  | hit =>
    obtain ⟨-, hs⟩ := Option.ite_none_right_eq_some.mp hs
    cases hs
    exact ⟨hw, hr, nofun, trivial⟩
  | testPriority q k =>
    cases hs
    split_ifs
    · exact ⟨hw, hr, nofun, trivial⟩
    · exact ⟨hw, hr, nofun, trivial⟩
  | original =>
    cases hs
    exact ⟨hw, hr, nofun, trivial⟩
  | unlockHit | unlockBypass =>
    cases hs
    exact ⟨hw, nofun, nofun, trivial⟩
  | unlockMiss q k miss o =>
    cases hs
    exact ⟨hw, nofun, nofun, by cases miss <;> exact hk⟩
  | lock q k miss o =>
    obtain ⟨mu, hm, hs⟩ := Option.map_eq_some_iff.mp hs
    cases hs
    obtain ⟨-, -, hmw, -⟩ := SharedMutex.lock_eq_some.mp hm
    exact ⟨by simp [hmw, Pc.exclusive], nofun, nofun, by cases miss <;> exact hk⟩
  | recheck q k miss o =>
    cases hs
    cases hp
    split_ifs with h
    · exact ⟨hw, nofun, nofun, trivial⟩
    · cases miss with
      | coherence => exact ⟨hw, nofun, fun _ => (not_not.mp h).trans hk, trivial⟩
      | conflict => exact ⟨hw, nofun, nofun, trivial⟩
  | lockInvalidate =>
    obtain ⟨mu, hm, hs⟩ := Option.map_eq_some_iff.mp hs
    cases hs
    obtain ⟨-, -, hmw, -⟩ := SharedMutex.lock_eq_some.mp hm
    exact ⟨by simp [hmw, Pc.exclusive], nofun, nofun, trivial⟩
  | unlockRetry | unlockFill | unlockInvalidate =>
    cases hs
    exact ⟨by simp [Pc.exclusive], nofun, nofun, trivial⟩
  | clearLoad =>
    cases hs
    cases hp
    exact ⟨hw, hr, ha, ha rfl⟩
  | clearStore =>
    cases hs
    cases hp
    exact ⟨hw, hr, fun _ => (unmarkPtr_unmarkPtr _).trans hk, trivial⟩
  | swap =>
    cases hs
    cases hp
    exact ⟨hw, hr, fun _ => p.unmarkPtr_raw, trivial⟩
  | fetch | bypass | done =>
    cases hs
    exact ⟨hw, hr, ha, trivial⟩
  | install q k miss v =>
    cases miss with
    | coherence =>
      obtain ⟨-, hs⟩ := Option.ite_none_right_eq_some.mp hs
      cases hs
      exact ⟨hw, nofun, nofun, trivial⟩
    | conflict =>
      cases hs
      exact ⟨hw, nofun, nofun, trivial⟩
  | compareInvalidate q =>
    cases hs
    cases hp
    split_ifs with h
    · exact ⟨hw, nofun, fun _ => h, trivial⟩
    · exact ⟨hw, nofun, nofun, trivial⟩
  | orLoad =>
    cases hs
    cases hp
    exact ⟨hw, hr, ha, ha rfl⟩
  | orStore =>
    cases hs
    exact ⟨hw, nofun, nofun, trivial⟩
  | casPeers p left =>
    cases left <;> cases hs
    exact ⟨hw, nofun, nofun, trivial⟩

end Local

namespace State

variable (s : State c V) (n m : Fin c.nodes) (p q : Ptr) (l : CacheLine T V) (t : T)
  (pc : Pc c.nodes V)

@[simp] lemma setPc_line : (s.setPc t pc).line n p = s.line n p := rfl
@[simp] lemma setPc_pc : (s.setPc t pc).pc = Function.update s.pc t pc := rfl
@[simp] lemma setPc_owner : (s.setPc t pc).owner = s.owner := rfl
@[simp] lemma setLine_pc : (s.setLine n p l).pc = s.pc := rfl
@[simp] lemma setLine_owner : (s.setLine n p l).owner = s.owner := rfl

lemma setLine_lines (i : ℕ) : (s.setLine n p l).lines m i =
    if m = n ∧ i = hash c.geometry p then l else s.lines m i := by
  unfold setLine
  by_cases hm : m = n
  · subst hm
    by_cases hi : i = hash c.geometry p <;> simp [hi]
  · simp [hm]

lemma setLine_line_of {s : State c V} {n m : Fin c.nodes} {p q : Ptr} {l : CacheLine T V}
    (h : m = n ∧ hash c.geometry q = hash c.geometry p) : (s.setLine n p l).line m q = l := by
  rw [line, setLine_lines, if_pos h]

lemma setLine_line_of_not {s : State c V} {n m : Fin c.nodes} {p q : Ptr} {l : CacheLine T V}
    (h : ¬ (m = n ∧ hash c.geometry q = hash c.geometry p)) :
    (s.setLine n p l).line m q = s.line m q := by
  rw [line, setLine_lines, if_neg h]
  rfl

end State

lemma line_congr {s : State c V} {n m : Fin c.nodes} {p q : Ptr}
    (h : m = n ∧ hash c.geometry q = hash c.geometry p) : s.line m q = s.line n p := by
  rw [State.line, State.line, h.1, h.2]

/-- What another thread does to a line keeps what a lock holder relies on. -/
lemma Ok.other {t u : T} {l l' : CacheLine T V} {p : Ptr} {pc : Pc c.nodes V}
    (ho : Ok u l p pc) (hu : u ≠ t) (he : Effect t l l') : Ok u l' p pc where
  writer := (he.writer u hu).trans ho.writer
  reader h := he.reader u hu (ho.reader h)
  known := ho.known
  address h := by
    rw [(he.fields fun hw => ?_).1]
    · exact ho.address h
    · rcases Bool.eq_false_or_eq_true pc.exclusive with hx | hx
      · exact hu (Option.some.inj ((ho.writer.mpr hx).symm.trans hw))
      · refine SharedMutex.not_reader_of_writer hw (ho.reader ?_)
        cases pc <;> simp_all [Pc.matched, Pc.exclusive, Pc.shared]

@[simp] lemma cas_mu (l : CacheLine T V) (q : Ptr) : (l.cas q).mu = l.mu := by
  unfold CacheLine.cas
  split_ifs <;> rfl

@[simp] lemma cas_data (l : CacheLine T V) (q : Ptr) : (l.cas q).data = l.data := by
  unfold CacheLine.cas
  split_ifs <;> rfl

lemma unmarkPtr_cas (l : CacheLine T V) (q : Ptr) :
    unmarkPtr (l.cas q).address = unmarkPtr l.address := by
  unfold CacheLine.cas
  split_ifs with h
  · rw [unmarkPtr_markPtr, h]
  · rfl

lemma Ok.cas {u : T} {l : CacheLine T V} {p q : Ptr} {pc : Pc c.nodes V} (ho : Ok u l p pc) :
    Ok u (l.cas q) p pc where
  writer := by rw [cas_mu]; exact ho.writer
  reader h := by rw [cas_mu]; exact ho.reader h
  address h := by rw [unmarkPtr_cas]; exact ho.address h
  known := ho.known

/-- A thread that leaves its line alone and holds no lock may move to any such position. -/
lemma Ok.unlocked {t : T} {l : CacheLine T V} {p : Ptr} {pc : Pc c.nodes V}
    (hw : l.mu.writer ≠ some t) (he : pc.exclusive = false) (hr : pc.shared = false)
    (hm : pc.matched = false) (hk : pc.known) : Ok t l p pc where
  writer := by simp [hw, he]
  reader h := by simp [hr] at h
  address h := by simp [hm] at h
  known := hk

lemma inv_initial {s : State c V} (h : Initial s) : Inv s where
  ok t p hp := by simp [h.2 t, Pc.ptr] at hp
  owned n i t hw := by simp [(h.1 n i).2.1] at hw

/-- A step that changes only the position of a thread that holds nothing. -/
lemma inv_setPc {s : State c V} {t : T} {pc : Pc c.nodes V} (hi : Inv s)
    (h : (s.pc t).exclusive = false)
    (ho : ∀ p, pc.ptr = some p → Ok t (s.line (c.home t) p) p pc) : Inv (s.setPc t pc) where
  ok u p hp := by
    by_cases hu : u = t
    · subst hu
      simp only [State.setPc_pc, Function.update_self, State.setPc_line] at hp ⊢
      exact ho p hp
    · simp only [State.setPc_pc, Function.update_of_ne hu, State.setPc_line] at hp ⊢
      exact hi.ok u p hp
  owned n i u hw := by
    obtain ⟨p, hp, hx, hn⟩ := hi.owned n i u hw
    have hu : u ≠ t := by
      rintro rfl
      simp [h] at hx
    exact ⟨p, by simpa [hu] using hp, by simpa [hu] using hx, hn⟩

lemma not_writer {s : State c V} (hi : Inv s) {t : T} (h : (s.pc t).exclusive = false)
    (n : Fin c.nodes) (p : Ptr) : (s.line n p).mu.writer ≠ some t := by
  intro hw
  obtain ⟨_, _, hx, _⟩ := hi.owned n _ t hw
  simp [h] at hx

lemma inv_line {s : State c V} {t : T} {p : Ptr} {l : CacheLine T V} {pc : Pc c.nodes V}
    (hi : Inv s) (hp : (s.pc t).ptr = some p)
    (hl : localStep c t s.owner (s.line (c.home t) p) (s.pc t) = some (l, pc)) :
    Inv ((s.setLine (c.home t) p l).setPc t pc) := by
  have hok := ok_localStep (hi.ok t p hp) hp hl
  have he := effect_localStep (hi.ok t p hp) hl
  refine ⟨fun u q hq => ?_, fun n i u hw => ?_⟩
  · by_cases hu : u = t
    · subst hu
      simp only [State.setPc_pc, Function.update_self, State.setPc_line] at hq ⊢
      obtain rfl : p = q := by
        rcases ptr_localStep hp hl with h | h
        · simp [h, Pc.ptr] at hq
        · exact Option.some.inj (h.symm.trans hq)
      rw [State.setLine_line_of ⟨rfl, rfl⟩]
      exact hok
    · simp only [State.setPc_pc, Function.update_of_ne hu, State.setPc_line,
        State.setLine_pc] at hq ⊢
      have ho := hi.ok u q hq
      by_cases hs : c.home u = c.home t ∧ hash c.geometry q = hash c.geometry p
      · rw [State.setLine_line_of hs]
        rw [line_congr hs] at ho
        exact ho.other hu he
      · rw [State.setLine_line_of_not hs]
        exact ho
  · simp only [State.setPc, State.setLine_lines] at hw
    split_ifs at hw with hs
    · obtain ⟨rfl, rfl⟩ := hs
      by_cases hu : u = t
      · subst hu
        have hx := hok.writer.mp hw
        refine ⟨p, ?_, by simpa using hx, rfl, rfl⟩
        rcases ptr_localStep hp hl with h | h
        · simp [h, Pc.exclusive] at hx
        · simpa using h
      · simpa [hu] using hi.owned _ _ u ((he.writer u hu).mp hw)
    · have hu : u ≠ t := by
        rintro rfl
        obtain ⟨q, hq, _, hn, hh⟩ := hi.owned n i u hw
        obtain rfl : p = q := Option.some.inj (hp.symm.trans hq)
        exact hs ⟨hn.symm, hh.symm⟩
      simpa [hu] using hi.owned n i u hw

lemma inv_cas {s : State c V} {t : T} {n : Fin c.nodes} {p : Ptr} {left left' : List (Fin c.nodes)}
    (hi : Inv s) (ht : s.pc t = .casPeers p left) :
    Inv ((s.setLine n p ((s.line n p).cas p)).setPc t (.casPeers p left')) := by
  have hs : Inv (s.setLine n p ((s.line n p).cas p)) := by
    refine ⟨fun u q hq => ?_, fun m i u hw => ?_⟩
    · have ho := hi.ok u q hq
      by_cases h : c.home u = n ∧ hash c.geometry q = hash c.geometry p
      · rw [State.setLine_line_of h]
        rw [line_congr h] at ho
        exact ho.cas
      · rw [State.setLine_line_of_not h]
        exact ho
    · rw [State.setLine_lines] at hw
      split_ifs at hw with h
      · rw [cas_mu] at hw
        obtain ⟨rfl, rfl⟩ := h
        exact hi.owned _ _ u hw
      · exact hi.owned m i u hw
  have hx : (s.pc t).exclusive = false := by simp [ht, Pc.exclusive]
  exact inv_setPc hs hx fun q _ => .unlocked (not_writer hs hx _ _) rfl rfl rfl trivial

lemma inv_step {s s' : State c V} {a : Act c V} (hi : Inv s) (h : Stepped s a s') : Inv s' := by
  cases h with
  | @begin t op pc ht hop =>
    have hx : (s.pc t).exclusive = false := by simp [ht, Pc.exclusive]
    refine inv_setPc hi hx fun p _ => ?_
    rcases hop with ⟨q, k, -, rfl⟩ | ⟨q, v, vs, -, ws, rfl⟩
    · exact .unlocked (not_writer hi hx _ _) rfl rfl rfl trivial
    · exact .unlocked (not_writer hi hx _ _) rfl rfl rfl trivial
  | @store t p v more ht =>
    have hi' : Inv { s with owner := Function.update s.owner p v } := ⟨hi.ok, hi.owned⟩
    have hx : (s.pc t).exclusive = false := by simp [ht, Pc.exclusive]
    refine inv_setPc hi' hx fun q _ => ?_
    cases more with
    | nil => exact .unlocked (not_writer hi hx _ _) rfl rfl rfl trivial
    | cons w ws => exact .unlocked (not_writer hi hx _ _) rfl rfl rfl trivial
  | line hp hl => exact inv_line hi hp hl
  | cas ht _ => exact inv_cas hi ht

/-! ### Lines that hold only recent values -/

/-- What a line gives to a reader once its writer is done. -/
def Served {N : ℕ} (R : Set V) (data : Option V) : Option (Pc N V) → Prop
  | some (.fetch _ _ _) => True
  | some (.install _ _ _ v) => v ∈ R
  | _ => ∃ v ∈ R, data = some v

/-- The line of `p` on a node does not let a reader hit on a value outside `R`. -/
def Clean (R : Set V) (s : State c V) (p : Ptr) (n : Fin c.nodes) : Prop :=
  (s.line n p).address = p.raw → Served R (s.line n p).data ((s.line n p).mu.writer.map s.pc)

lemma Served.mono {N : ℕ} {R R' : Set V} (hR : R ⊆ R') {data : Option V} {pc : Option (Pc N V)}
    (h : Served R data pc) : Served R' data pc := by
  unfold Served at h ⊢
  split at h
  · trivial
  · exact hR h
  · obtain ⟨v, hv, hd⟩ := h
    exact ⟨v, hR hv, hd⟩

lemma Clean.mono {R R' : Set V} (hR : R ⊆ R') {s : State c V} {p : Ptr} {n : Fin c.nodes}
    (h : Clean R s p n) : Clean R' s p n := fun ha => (h ha).mono hR

lemma map_update_of_ne {o : Option T} {f : T → Pc c.nodes V} {t : T} {pc : Pc c.nodes V}
    (h : o ≠ some t) : o.map (Function.update f t pc) = o.map f := by
  cases o with
  | none => rfl
  | some u =>
    have hu : u ≠ t := fun hu => h (by rw [hu])
    simp [hu]

lemma markPtr_ne (a : Raw) (p : Ptr) : markPtr a ≠ p.raw := fun h => by
  have hm := isMarked_markPtr a
  rw [h, p.unmarked] at hm
  cases hm

lemma served_localStep {R : Set V} {t : T} {owner : Ptr → V} {l l' : CacheLine T V} {p q : Ptr}
    {pc pc' : Pc c.nodes V} {f : T → Pc c.nodes V} (ho : Ok t l q pc) (hq : pc.ptr = some q)
    (hf : f t = pc) (hl : localStep c t owner l pc = some (l', pc')) (hR : owner p ∈ R)
    (h : l.address = p.raw → Served R l.data (l.mu.writer.map f)) (ha : l'.address = p.raw) :
    Served R l'.data (l'.mu.writer.map (Function.update f t pc')) := by
  have hw := ho.writer
  cases pc with
  | idle | store => cases hl
  | compare | testBit | testPriority | bypass | original | done | unlockHit | unlockBypass
  | unlockMiss =>
    cases hl
    have hn : l.mu.writer ≠ some t := by simp [hw, Pc.exclusive]
    simpa [map_update_of_ne hn] using h ha
  | hit =>
    obtain ⟨-, hl⟩ := Option.ite_none_right_eq_some.mp hl
    cases hl
    have hn : l.mu.writer ≠ some t := by simp [hw, Pc.exclusive]
    simpa [map_update_of_ne hn] using h ha
  | casPeers _ left =>
    cases left <;> cases hl
    have hn : l.mu.writer ≠ some t := by simp [hw, Pc.exclusive]
    simpa [map_update_of_ne hn] using h ha
  | lockShared =>
    obtain ⟨mu, hm, hl⟩ := Option.map_eq_some_iff.mp hl
    cases hl
    obtain ⟨hw0, hw1, -⟩ := SharedMutex.lockShared_eq_some.mp hm
    simpa [hw0, hw1] using h ha
  | lock | lockInvalidate =>
    obtain ⟨mu, hm, hl⟩ := Option.map_eq_some_iff.mp hl
    cases hl
    obtain ⟨hw0, -, hw1, -⟩ := SharedMutex.lock_eq_some.mp hm
    have hs := h ha
    simpa [hw0, hw1, Served] using hs
  | recheck q k miss o =>
    cases hl
    have hs := h ha
    simp only [hw.mpr rfl, Option.map_some, hf, Function.update_self] at hs ⊢
    split_ifs <;> cases miss <;> exact hs
  | clearLoad | orLoad =>
    cases hl
    have hs := h ha
    simp only [hw.mpr rfl, Option.map_some, hf, Function.update_self] at hs ⊢
    exact hs
  | compareInvalidate =>
    cases hl
    have hs := h ha
    simp only [hw.mpr rfl, Option.map_some, hf, Function.update_self] at hs ⊢
    split_ifs <;> exact hs
  | unlockRetry | unlockFill | unlockInvalidate =>
    cases hl
    have hs := h ha
    simp only [hw.mpr rfl, Option.map_some, hf] at hs
    exact hs
  | clearStore | swap =>
    cases hl
    simp [hw.mpr rfl, Served]
  | fetch q' k miss =>
    cases hl
    cases hq
    obtain rfl : q = p := Ptr.ext (by
      have hm := ho.address rfl
      rw [ha, p.unmarkPtr_raw] at hm
      exact hm.symm)
    simpa [hw.mpr rfl, Served] using hR
  | install q' k miss v =>
    have hv : l.address = p.raw → v ∈ R := fun ha => by
      have hs := h ha
      simp only [hw.mpr rfl, Option.map_some, hf] at hs
      exact hs
    cases miss with
    | coherence =>
      obtain ⟨-, hl⟩ := Option.ite_none_right_eq_some.mp hl
      cases hl
      simpa [hw.mpr rfl, Served] using hv ha
    | conflict =>
      cases hl
      simpa [hw.mpr rfl, Served] using hv ha
  | orStore =>
    cases hl
    exact absurd ha (markPtr_ne _ p)

theorem clean_step {R : Set V} {s s' : State c V} {a : Act c V} {p : Ptr} {n : Fin c.nodes}
    (hi : Inv s) (hR : s.owner p ∈ R) (h : Clean R s p n) (hs : Stepped s a s') :
    Clean R s' p n := by
  cases hs with
  | @begin t op pc ht _ =>
    have hn := not_writer hi (t := t) (by simp [ht, Pc.exclusive]) n p
    intro ha
    simpa [map_update_of_ne hn] using h ha
  | @store t q v more ht =>
    have hn := not_writer hi (t := t) (by simp [ht, Pc.exclusive]) n p
    intro ha
    have hs := h ha
    have hmu : ∀ pc, ((s.line n p).mu.writer.map (Function.update s.pc t pc)) =
        (s.line n p).mu.writer.map s.pc := fun pc => map_update_of_ne hn
    have hserved : ∀ pc, Served R (s.line n p).data
        ((s.line n p).mu.writer.map (Function.update s.pc t pc)) := fun pc => by rwa [hmu pc]
    exact hserved _
  | @line t q l pc hq hl =>
    by_cases hn : n = c.home t ∧ hash c.geometry p = hash c.geometry q
    · intro ha
      rw [State.setPc_line, State.setLine_line_of hn] at ha ⊢
      unfold Clean at h
      rw [line_congr hn] at h
      exact served_localStep (hi.ok t q hq) hq rfl hl hR h ha
    · have ht : (s.line n p).mu.writer ≠ some t := by
        intro hw
        obtain ⟨q', hq', -, hn', hh⟩ := hi.owned n _ t hw
        obtain rfl : q = q' := Option.some.inj (hq.symm.trans hq')
        exact hn ⟨hn'.symm, hh.symm⟩
      intro ha
      rw [State.setPc_line, State.setLine_line_of_not hn] at ha ⊢
      simpa [map_update_of_ne ht] using h ha
  | @cas t m q left ht _ =>
    have hn := not_writer hi (t := t) (by simp [ht, Pc.exclusive]) n p
    intro ha
    by_cases hm : n = m ∧ hash c.geometry p = hash c.geometry q
    · rw [State.setPc_line, State.setLine_line_of hm] at ha ⊢
      rw [← line_congr hm] at ha ⊢
      simp only [cas_data, cas_mu, State.setPc_pc, State.setLine_pc, map_update_of_ne hn]
      refine h ?_
      unfold CacheLine.cas at ha
      split_ifs at ha
      · exact absurd ha (markPtr_ne _ p)
      · exact ha
    · rw [State.setPc_line, State.setLine_line_of_not hm] at ha ⊢
      simpa [map_update_of_ne hn] using h ha

end ObjectCache.Cache.Coherence
