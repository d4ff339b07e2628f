import ObjectCache.Cache.CoherentRuns

/-! The priorities of the lines: a read tests the priority under the shared lock and replaces the object under
the exclusive one. -/

namespace ObjectCache.Cache.Coherence

open Lib

set_option linter.unusedSectionVars false

variable {T V : Type} [DecidableEq T] {c : Config T}

/-- No thread is about to replace the object of an occupied line by one with a larger priority number. -/
def Respects (s : State c V) : Prop :=
  ∀ t p k, s.pc t = .swap p k → (s.line (c.home t) p).address ≠ 0#64 →
    unmarkPtr (s.line (c.home t) p).address ≠ p.raw → k ≤ (s.line (c.home t) p).priority

/-- The thread has passed the test and waits for the exclusive lock. -/
def Pc.waitsFor {N : ℕ} : Pc N V → Option (Ptr × ℤ × Raw)
  | .lock p k .conflict o => some (p, k, o)
  | _ => none

/-- The priority that the thread is about to set. -/
def Pc.installs {N : ℕ} : Pc N V → Option (Ptr × ℤ)
  | .install p k _ _ => some (p, k)
  | _ => none

/-- The line has a new address, and its priority is still that of the old object. -/
def Pc.refills {N : ℕ} : Pc N V → Bool
  | .fetch _ _ .conflict | .install _ _ .conflict _ => true
  | _ => false

/-- The step does not set the priority of a line below the number of a thread that waits for the line's lock
and has the line's address. -/
def Safe (s : State c V) (a : Act c V) : Prop :=
  ∀ u q k', a = .next u → (s.pc u).installs = some (q, k') → ∀ t p k o, (s.pc t).waitsFor = some (p, k, o) →
    c.home t = c.home u → hash c.geometry p = hash c.geometry q →
    unmarkPtr (s.line (c.home t) p).address = o → k ≤ k'

/-- Nobody refills the line. -/
def Calm (s : State c V) (l : CacheLine T V) : Prop := ∀ u, l.mu.writer = some u → (s.pc u).refills = false

/-- What a thread that has passed the test may rely on. -/
def Guarded {N : ℕ} (l : CacheLine T V) (calm : Prop) : Pc N V → Prop
  | .original _ k | .unlockMiss _ k .conflict _ | .swap _ k => k ≤ l.priority
  | .lock _ k .conflict o | .recheck _ k .conflict o => unmarkPtr l.address = o → calm → k ≤ l.priority
  | _ => True

structure Guards (s : State c V) : Prop where
  guard : ∀ t p, (s.pc t).ptr = some p → Guarded (s.line (c.home t) p) (Calm s (s.line (c.home t) p)) (s.pc t)

lemma Guarded.mono {N : ℕ} {l l' : CacheLine T V} {calm calm' : Prop} {pc : Pc N V}
    (h : Guarded l calm pc) (ha : unmarkPtr l'.address = unmarkPtr l.address)
    (hp : l'.priority = l.priority) (hc : calm' → calm) : Guarded l' calm' pc := by
  cases pc with
  | original | swap =>
    simp only [Guarded] at h ⊢
    rwa [hp]
  | unlockMiss p k miss o =>
    cases miss with
    | coherence => trivial
    | conflict =>
      simp only [Guarded] at h ⊢
      rwa [hp]
  | lock p k miss o | recheck p k miss o =>
    cases miss with
    | coherence => trivial
    | conflict =>
      simp only [Guarded] at h ⊢
      intro ho hcalm
      rw [ha] at ho
      rw [hp]
      exact h ho (hc hcalm)
  | _ => trivial

section Local

variable {t : T} {owner : Ptr → V} {l l' : CacheLine T V} {p : Ptr} {pc pc' : Pc c.nodes V}

/-- A step that sets no priority and swaps no address leaves both as they are. -/
lemma same_localStep (ho : Ok t l p pc) (hptr : pc.ptr = some p) (hs : localStep c t owner l pc = some (l', pc'))
    (hi : pc.installs = none) (hw : ∀ q k, pc ≠ .swap q k) :
    unmarkPtr l'.address = unmarkPtr l.address ∧ l'.priority = l.priority := by
  have hk := ho.known
  have ha := ho.address
  cases pc with
  | idle | store => cases hs
  | compare | testBit | testPriority | bypass | original | recheck | clearLoad | fetch
  | compareInvalidate | orLoad | done =>
    cases hs
    exact ⟨rfl, rfl⟩
  | hit =>
    obtain ⟨-, hs⟩ := Option.ite_none_right_eq_some.mp hs
    cases hs
    exact ⟨rfl, rfl⟩
  | casPeers p left =>
    cases left <;> cases hs
    exact ⟨rfl, rfl⟩
  | lockShared | lock | lockInvalidate =>
    obtain ⟨mu, -, hs⟩ := Option.map_eq_some_iff.mp hs
    cases hs
    exact ⟨rfl, rfl⟩
  | unlockHit | unlockBypass | unlockMiss | unlockRetry | unlockFill | unlockInvalidate =>
    cases hs
    exact ⟨rfl, rfl⟩
  | clearStore q k loaded =>
    cases hs
    cases hptr
    refine ⟨?_, rfl⟩
    rw [unmarkPtr_unmarkPtr]
    exact Eq.trans hk (ha rfl).symm
  | orStore q loaded =>
    cases hs
    cases hptr
    refine ⟨?_, rfl⟩
    rw [unmarkPtr_markPtr]
    exact Eq.trans hk (ha rfl).symm
  | swap q k => exact absurd rfl (hw q k)
  | install => cases hi

/-- The thread's own next position. -/
lemma guarded_localStep {calm calm' : Prop} (ho : Ok t l p pc)
    (hs : localStep c t owner l pc = some (l', pc')) (hfree : l.mu.writer = none → calm)
    (hmine : l.mu.writer = some t → pc.refills = false → calm) (h : Guarded l calm pc) : Guarded l' calm' pc' := by
  cases pc with
  | idle | store => cases hs
  | testPriority q k =>
    cases hs
    split_ifs with hlt
    · trivial
    · exact Int.not_lt.mp hlt
  | original q k =>
    cases hs
    exact h
  | unlockMiss q k miss o =>
    cases hs
    cases miss with
    | coherence => trivial
    | conflict => exact fun _ _ => h
  | lock q k miss o =>
    obtain ⟨mu, hm, hs⟩ := Option.map_eq_some_iff.mp hs
    cases hs
    cases miss with
    | coherence => trivial
    | conflict => exact fun hx _ => h hx (hfree (SharedMutex.lock_eq_some.mp hm).1)
  | recheck q k miss o =>
    cases hs
    split_ifs with hne
    · trivial
    · cases miss with
      | coherence => trivial
      | conflict => exact h (not_not.mp hne) (hmine (ho.writer.mpr rfl) rfl)
  | compare | testBit | compareInvalidate =>
    cases hs
    split_ifs <;> trivial
  | bypass | clearLoad | fetch | orLoad | done | unlockHit | unlockBypass | unlockRetry | unlockFill
  | unlockInvalidate | clearStore | swap | orStore =>
    cases hs
    trivial
  | hit =>
    obtain ⟨-, hs⟩ := Option.ite_none_right_eq_some.mp hs
    cases hs
    trivial
  | casPeers p left =>
    cases left <;> cases hs
    trivial
  | lockShared | lockInvalidate =>
    obtain ⟨mu, -, hs⟩ := Option.map_eq_some_iff.mp hs
    cases hs
    trivial
  | install q k miss v =>
    cases miss with
    | coherence =>
      obtain ⟨-, hs⟩ := Option.ite_none_right_eq_some.mp hs
      cases hs
      trivial
    | conflict =>
      cases hs
      trivial

end Local

/-- While the line is refilled only its priority matters. -/
lemma Guarded.of_not_calm {N : ℕ} {l l' : CacheLine T V} {calm calm' : Prop} {pc : Pc N V}
    (h : Guarded l calm pc) (hp : l'.priority = l.priority) (hc : ¬ calm') : Guarded l' calm' pc := by
  cases pc with
  | original | swap =>
    simp only [Guarded] at h ⊢
    rwa [hp]
  | unlockMiss p k miss o =>
    cases miss with
    | coherence => trivial
    | conflict =>
      simp only [Guarded] at h ⊢
      rwa [hp]
  | lock p k miss o | recheck p k miss o =>
    cases miss with
    | coherence => trivial
    | conflict => exact fun _ hcalm => absurd hcalm hc
  | _ => trivial

/-- What a thread outside the lock keeps when a priority is set. -/
lemma Guarded.installed {N : ℕ} {l' : CacheLine T V} {calm' : Prop} {pc : Pc N V}
    (hx : pc.exclusive = false) (hr : pc.shared = false)
    (hp : ∀ p k o, pc.waitsFor = some (p, k, o) → unmarkPtr l'.address = o → k ≤ l'.priority) :
    Guarded l' calm' pc := by
  cases pc with
  | original | unlockMiss => cases hr
  | swap | recheck => cases hx
  | lock p k miss o =>
    cases miss with
    | coherence => trivial
    | conflict => exact fun ho _ => hp p k o rfl ho
  | _ => trivial

section Step

variable {s s' : State c V} {t u : T} {p q : Ptr} {l' : CacheLine T V} {pc' : Pc c.nodes V}

lemma calm_setPc {l : CacheLine T V} (ht : (s.pc t).refills = false) (h : Calm (s.setPc t pc') l) : Calm s l := by
  intro w hw
  by_cases hwt : w = t
  · rw [hwt]
    exact ht
  · have hcalm := h w hw
    rwa [State.setPc_pc, Function.update_of_ne hwt] at hcalm

/-- The other threads on the line where `t` takes a step. -/
lemma guarded_line (hi : Inv s) (hg : Guards s) (hsafe : Safe s (.next t)) (hp : (s.pc t).ptr = some p)
    (hl : localStep c t s.owner (s.line (c.home t) p) (s.pc t) = some (l', pc')) (hut : u ≠ t)
    (hq : (s.pc u).ptr = some q) (hsame : c.home u = c.home t ∧ hash c.geometry q = hash c.geometry p) :
    Guarded l' (∀ w, l'.mu.writer = some w → (Function.update s.pc t pc' w).refills = false) (s.pc u) := by
  have hok := hi.ok t p hp
  have hoku := hi.ok u q hq
  have hgu := hg.guard u q hq
  rw [line_congr hsame] at hoku hgu
  have heffect := effect_localStep hok hl
  by_cases hswap : ∃ q' k, s.pc t = .swap q' k
  · obtain ⟨q', k, hpc⟩ := hswap
    have hw : (s.line (c.home t) p).mu.writer = some t := hok.writer.mpr (by rw [hpc]; rfl)
    rw [hpc] at hl
    cases hl
    refine hgu.of_not_calm rfl fun hcalm => ?_
    have hrefills := hcalm t hw
    rw [Function.update_self] at hrefills
    cases hrefills
  cases hinst : (s.pc t).installs with
  | some x =>
    obtain ⟨q', k'⟩ := x
    have hex : (s.pc t).exclusive = true := by
      cases hpc : s.pc t with
      | install => rfl
      | _ =>
        rw [hpc] at hinst
        cases hinst
    have hw : (s.line (c.home t) p).mu.writer = some t := hok.writer.mpr hex
    have hxu : (s.pc u).exclusive = false := by
      rw [Bool.eq_false_iff]
      intro hx
      exact hut (Option.some.inj ((hoku.writer.mpr hx).symm.trans hw))
    have hru : (s.pc u).shared = false := by
      rw [Bool.eq_false_iff]
      intro hr
      exact SharedMutex.not_reader_of_writer hw (hoku.reader hr)
    have hset : l'.priority = k' ∧ l'.address = (s.line (c.home t) p).address ∧ q' = p := by
      cases hpc : s.pc t with
      | install q'' k'' miss v =>
        rw [hpc] at hinst hl hp
        cases hinst
        cases hp
        cases miss with
        | coherence =>
          obtain ⟨-, hl⟩ := Option.ite_none_right_eq_some.mp hl
          cases hl
          exact ⟨rfl, rfl, rfl⟩
        | conflict =>
          cases hl
          exact ⟨rfl, rfl, rfl⟩
      | _ =>
        rw [hpc] at hinst
        cases hinst
    obtain ⟨hpriority, haddress, rfl⟩ := hset
    refine Guarded.installed hxu hru fun p' k o hwaits ho => ?_
    obtain rfl : p' = q := by
      cases hpc : s.pc u with
      | lock p'' k'' miss o'' =>
        rw [hpc] at hwaits hq
        cases miss with
        | coherence => cases hwaits
        | conflict =>
          cases hwaits
          cases hq
          rfl
      | _ =>
        rw [hpc] at hwaits
        cases hwaits
    rw [hpriority]
    refine hsafe t q' k' rfl hinst u p' k o hwaits hsame.1 hsame.2 ?_
    rw [line_congr hsame, ← haddress]
    exact ho
  | none =>
    obtain ⟨ha, hpr⟩ := same_localStep hok hp hl hinst fun q' k hpc => hswap ⟨q', k, hpc⟩
    refine hgu.mono ha hpr fun hcalm w hw => ?_
    by_cases hwt : w = t
    · subst hwt
      -- between the new address and the new priority there is the fetch alone
      cases hpc : s.pc w with
      | fetch q' k miss =>
        cases miss with
        | coherence => rfl
        | conflict =>
          rw [hpc] at hl
          cases hl
          have hrefills := hcalm w hw
          rw [Function.update_self] at hrefills
          cases hrefills
      | install =>
        rw [hpc] at hinst
        cases hinst
      | _ => rfl
    · have hrefills := hcalm w ((heffect.writer w hwt).mpr hw)
      rwa [Function.update_of_ne hwt] at hrefills

lemma guards_line (hi : Inv s) (hg : Guards s) (hsafe : Safe s (.next t)) (hp : (s.pc t).ptr = some p)
    (hl : localStep c t s.owner (s.line (c.home t) p) (s.pc t) = some (l', pc')) :
    Guards ((s.setLine (c.home t) p l').setPc t pc') := by
  refine ⟨fun u q hq => ?_⟩
  by_cases hut : u = t
  · subst hut
    rw [State.setPc_pc, Function.update_self] at hq ⊢
    obtain rfl : p = q := by
      rcases ptr_localStep hp hl with h | h
      · rw [h] at hq
        cases hq
      · exact Option.some.inj (h.symm.trans hq)
    rw [State.setPc_line, State.setLine_line_of ⟨rfl, rfl⟩]
    refine guarded_localStep (hi.ok u p hp) hl (fun hfree w hw => ?_) (fun hmine hr w hw => ?_) (hg.guard u p hp)
    · rw [hfree] at hw
      cases hw
    · obtain rfl := Option.some.inj (hmine.symm.trans hw)
      exact hr
  · rw [State.setPc_pc, State.setLine_pc, Function.update_of_ne hut] at hq ⊢
    rw [State.setPc_line]
    by_cases hsame : c.home u = c.home t ∧ hash c.geometry q = hash c.geometry p
    · rw [State.setLine_line_of hsame]
      have hguard := guarded_line hi hg hsafe hp hl hut hq hsame
      exact hguard
    · rw [State.setLine_line_of_not hsame]
      refine (hg.guard u q hq).mono rfl rfl fun hcalm w hw => ?_
      have hwt : w ≠ t := by
        rintro rfl
        obtain ⟨p', hp', -, hn, hh⟩ := hi.owned (c.home u) (hash c.geometry q) w hw
        obtain rfl := Option.some.inj (hp.symm.trans hp')
        exact hsame ⟨hn.symm, hh.symm⟩
      have hrefills := hcalm w hw
      rwa [State.setPc_pc, State.setLine_pc, Function.update_of_ne hwt] at hrefills

/-- A thread that holds nothing takes another position, the lines stay. -/
lemma guards_setPc (hg : Guards s) (ht : (s.pc t).refills = false) (hpc : ∀ (l : CacheLine T V) (calm : Prop), Guarded l calm pc') :
    Guards (s.setPc t pc') := by
  refine ⟨fun u q hq => ?_⟩
  by_cases hut : u = t
  · subst hut
    rw [State.setPc_pc, Function.update_self]
    exact hpc _ _
  · rw [State.setPc_pc, Function.update_of_ne hut] at hq ⊢
    exact (hg.guard u q hq).mono rfl rfl fun hcalm => calm_setPc ht hcalm

lemma cas_priority (l : CacheLine T V) (q : Ptr) : (l.cas q).priority = l.priority := by
  rw [CacheLine.cas]
  split_ifs <;> rfl

lemma guards_cas {n : Fin c.nodes} (hg : Guards s) : Guards (s.setLine n p ((s.line n p).cas p)) := by
  refine ⟨fun u q hq => ?_⟩
  have hgu := hg.guard u q hq
  rw [State.setLine_pc]
  by_cases hsame : c.home u = n ∧ hash c.geometry q = hash c.geometry p
  · rw [State.setLine_line_of hsame]
    rw [line_congr hsame] at hgu
    refine hgu.mono (unmarkPtr_cas _ _) (cas_priority _ _) fun hcalm w hw => hcalm w ?_
    rwa [cas_mu]
  · rw [State.setLine_line_of_not hsame]
    exact hgu.mono rfl rfl fun hcalm => hcalm

lemma guards_step {a : Act c V} (hi : Inv s) (hg : Guards s) (hsafe : Safe s a) (h : Stepped s a s') :
    Guards s' := by
  cases h with
  | @begin t op pc ht hop =>
    refine guards_setPc hg (by rw [ht]; rfl) fun l calm => ?_
    rcases hop with ⟨p, k, -, rfl⟩ | ⟨p, v, vs, -, ws, rfl⟩
    · trivial
    · trivial
  | @store t p v more ht =>
    have hg' : Guards { s with owner := Function.update s.owner p v } := ⟨hg.guard⟩
    refine guards_setPc hg' (show (s.pc t).refills = false by rw [ht]; rfl) fun l calm => ?_
    cases more with
    | nil => trivial
    | cons w ws => trivial
  | line hp hl => exact guards_line hi hg hsafe hp hl
  | @cas t n p left ht _ =>
    refine guards_setPc (guards_cas hg) (show (s.pc t).refills = false by rw [ht]; rfl) fun _ _ => trivial

lemma guards_initial (h : Initial s) : Guards s := by
  refine ⟨fun t p hp => ?_⟩
  rw [h.2 t] at hp
  cases hp

lemma Guards.respects (hg : Guards s) : Respects s := by
  intro t p k hpc _ _
  have hguard := hg.guard t p (by rw [hpc]; rfl)
  rw [hpc] at hguard
  exact hguard

end Step

/-- In a run whose steps set no priority below that of a waiting thread, no object is replaced by one with a
larger priority number than the line has. -/
theorem respects_of_safe (c : Config T) (V : Type) (r : (machine c V).Run)
    (hsafe : ∀ i < r.len, Safe (r.state i) (r.act i)) : ∀ i ≤ r.len, Respects (r.state i) := by
  have hinv : ∀ i ≤ r.len, Inv (r.state i) ∧ Guards (r.state i) := by
    intro i hi
    induction i with
    | zero => exact ⟨inv_initial r.start, guards_initial r.start⟩
    | succ i ih =>
      obtain ⟨hinv, hguards⟩ := ih (by omega)
      have hstep := step_cases (r.next i hi)
      exact ⟨inv_step hinv hstep, guards_step hinv hguards (hsafe i hi) hstep⟩
  intro i hi
  exact (hinv i hi).2.respects

/-! ### Two threads on one line -/

deriving instance DecidableEq for Pc

def single : Config Bool where
  nodes := 1
  home _ := ⟨0, Nat.one_pos⟩
  geometry := ⟨1, fun _ => 0, id, fun _ => 0⟩
  size _ := 64

def emptyCache : State single ℕ where
  lines _ _ := ⟨0#64, .free, 2147483647, 0, none⟩
  owner _ := 0
  pc _ := .idle

def Ptr.second : Ptr := ⟨128#64, by decide, by decide⟩

/-- One thread reads an object with number 5, then the other reads another one with number 3. -/
def replacing : (machine single ℕ).Run :=
  .ofActs (machine single ℕ) emptyCache (.begin true (.read .first 5) :: List.replicate 12 (.next true) ++
      .begin false (.read Ptr.second 3) :: List.replicate 12 (.next false))
    ⟨fun _ _ => ⟨rfl, rfl, rfl, rfl⟩, fun _ => rfl⟩ (by decide)

theorem respects_of_safe_replacing : Respects (replacing.state replacing.len) := by
  refine respects_of_safe single ℕ replacing (fun i hi => ?_) replacing.len le_rfl
  have hquiet : ∀ i < 26, ∀ u, ((replacing.state i).pc u).installs = none ∨
      ∀ t, ((replacing.state i).pc t).waitsFor = none := by
    decide
  intro u q k' _ hinst t p k o hwaits
  rcases hquiet i hi u with h | h
  · rw [h] at hinst
    cases hinst
  · rw [h t] at hwaits
    cases hwaits

/-- While the second read waits for the lock, the first object is invalidated and read again with number 1. -/
def lowering : (machine single ℕ).Run :=
  .ofActs (machine single ℕ) emptyCache (.begin true (.read .first 5) :: List.replicate 12 (.next true) ++
      .begin false (.read Ptr.second 3) :: List.replicate 5 (.next false) ++
      .begin true (.invalidate .first 0 []) :: List.replicate 8 (.next true) ++
      .begin true (.read .first 1) :: List.replicate 12 (.next true) ++ List.replicate 2 (.next false))
    ⟨fun _ _ => ⟨rfl, rfl, rfl, rfl⟩, fun _ => rfl⟩ (by decide)

theorem not_respects_lowering : ¬ ∀ r : (machine single ℕ).Run, ∀ i ≤ r.len, Respects (r.state i) := by
  intro h
  have hlast : (lowering.state 43).pc false = .swap Ptr.second 3 ∧
      ((lowering.state 43).line (single.home false) Ptr.second).address = Ptr.first.raw ∧
      ((lowering.state 43).line (single.home false) Ptr.second).priority = 1 := by
    decide +kernel
  obtain ⟨hpc, haddress, hpriority⟩ := hlast
  have hle := h lowering 43 (by decide) false Ptr.second 3 hpc (by rw [haddress]; decide) (by rw [haddress]; decide)
  rw [hpriority] at hle
  exact absurd hle (by decide)

end ObjectCache.Cache.Coherence
