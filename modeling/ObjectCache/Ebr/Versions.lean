import ObjectCache.Ebr.Steps
import ObjectCache.Ebr.Grace
import Mathlib.Data.Fintype.Card
import Mathlib.Data.Fintype.EquivFin
import Mathlib.Tactic.NormNum

/-! The versions on their way round the ring: each node sends them in increasing order, one thread
for each. -/

namespace ObjectCache.Ebr

open Lib

set_option linter.unusedSectionVars false

variable {T Obj : Type} [DecidableEq T] [DecidableEq Obj] {c : Config T}

namespace Pc

/-- The `new_version` of a thread. -/
def taken : Pc T → Option ℕ
  | .operating | .readVersion => none
  | .storeSlot v | .checkSlots v _ | .loadAt v | .exchangeAt v | .incCycles v | .writeNext v => some v

/-- The same once it has checked all slots. -/
def scanned : Pc T → Option ℕ
  | .operating | .readVersion | .storeSlot _ | .checkSlots _ _ => none
  | .loadAt v | .exchangeAt v | .incCycles v | .writeNext v => some v

/-- The same once it has passed the exchange. -/
def won : Pc T → Option ℕ
  | .incCycles v | .writeNext v => some v
  | _ => none

lemma scanned_of_won {pc : Pc T} {v : ℕ} (h : pc.won = some v) : pc.scanned = some v := by
  cases pc <;> simp_all [won, scanned]

lemma Ok.scanned {slots : T → ℕ} {t : T} {pc : Pc T} {v : ℕ} (h : pc.Ok c slots t)
    (hv : pc.scanned = some v) : ∀ u, c.home u = c.home t → v ≤ slots u := by
  cases pc with
  | operating | readVersion | storeSlot | checkSlots => simp [Pc.scanned] at hv
  | loadAt w | exchangeAt w | incCycles w | writeNext w =>
    simp only [Pc.scanned, Option.some.injEq] at hv
    exact hv ▸ h

end Pc

/-- The versions a node has sent that its successor has not outgrown, oldest first. -/
def State.queue (s : State c Obj) (n : Fin c.nodes) : List ℕ := s.my_version (c.next n) :: s.sent n

/-- Every version still fits into the `int` of `at_version`. -/
def State.Fits (s : State c Obj) : Prop := ∀ n, s.my_version n + 1 < 2 ^ 31

/-- What a thread knows of the version of its node and of its own slot. -/
structure Own (s : State c Obj) : Prop where
  taken : ∀ t v, (s.pc t).taken = some v → v ≤ s.my_version (c.home t) + 1
  slot : ∀ t, s.thread_slots t ≤ s.my_version (c.home t) + 1
  checked : ∀ t v left, s.pc t = .checkSlots v left → t ∉ left → s.thread_slots t = v
  scanned : ∀ t v, (s.pc t).scanned = some v → s.thread_slots t = v

lemma State.setPc_pc (s : State c Obj) (t : T) (pc : Pc T) :
    (s.setPc t pc).pc = Function.update s.pc t pc := rfl

lemma State.setPc_cases (s : State c Obj) (t : T) (pc : Pc T) (u : T) :
    ((s.setPc t pc).pc u = pc ∧ u = t) ∨ ((s.setPc t pc).pc u = s.pc u ∧ u ≠ t) := by
  by_cases hu : u = t
  · subst hu
    exact .inl ⟨Function.update_self .., rfl⟩
  · exact .inr ⟨Function.update_of_ne hu .., hu⟩

lemma own_initial {s : State c Obj} (h : Initial s) : Own s := by
  have hpc : ∀ t, s.pc t = .operating := fun t => (h.2 t).2.2.2
  refine ⟨?_, ?_, ?_, ?_⟩
  · intro t v hv
    simp [hpc, Pc.taken] at hv
  · intro t
    simp [(h.2 t).1]
  · intro t v left hv
    simp [hpc] at hv
  · intro t v hv
    simp [hpc, Pc.scanned] at hv

lemma Own.goto {s : State c Obj} (h : Own s) {t : T} {pc : Pc T}
    (htaken : ∀ v, pc.taken = some v → v ≤ s.my_version (c.home t) + 1)
    (hchecked : ∀ v left, pc = .checkSlots v left → t ∉ left → s.thread_slots t = v)
    (hscanned : ∀ v, pc.scanned = some v → s.thread_slots t = v) : Own (s.setPc t pc) := by
  refine ⟨?_, h.slot, ?_, ?_⟩
  · intro u v hv
    rcases s.setPc_cases t pc u with ⟨hu, rfl⟩ | ⟨hu, -⟩ <;> rw [hu] at hv
    · exact htaken v hv
    · exact h.taken u v hv
  · intro u v left hv
    rcases s.setPc_cases t pc u with ⟨hu, rfl⟩ | ⟨hu, -⟩ <;> rw [hu] at hv
    · exact hchecked v left hv
    · exact h.checked u v left hv
  · intro u v hv
    rcases s.setPc_cases t pc u with ⟨hu, rfl⟩ | ⟨hu, -⟩ <;> rw [hu] at hv
    · exact hscanned v hv
    · exact h.scanned u v hv

lemma Own.leave {s : State c Obj} (h : Own s) (t : T) : Own (s.setPc t .operating) :=
  h.goto (by simp [Pc.taken]) (by simp) (by simp [Pc.scanned])

/-- A thread goes on with the version it has checked all slots for. -/
lemma Own.goOn {s : State c Obj} (h : Own s) {t : T} {v : ℕ} {pc : Pc T}
    (hv : (s.pc t).scanned = some v) (htaken : (s.pc t).taken = some v)
    (hpc : ∀ w, pc.taken = some w → w = v) (hchecked : ∀ w left, pc ≠ .checkSlots w left) :
    Own (s.setPc t pc) := by
  have hsame : ∀ w, pc.scanned = some w → w = v := by
    intro w hw
    apply hpc
    cases pc <;> simp_all [Pc.scanned, Pc.taken]
  refine h.goto ?_ (fun w left hw => absurd hw (hchecked w left)) ?_
  · intro w hw
    rw [hpc w hw]
    exact h.taken t v htaken
  · intro w hw
    rw [hsame w hw]
    exact h.scanned t v hv

/-- A thread raises its own slot before it checks the others. -/
lemma Own.raise {s : State c Obj} (h : Own s) {t : T} {v : ℕ} (hpc : s.pc t = .storeSlot v) :
    Own { s with thread_slots := Function.update s.thread_slots t v } := by
  have hother : ∀ u, u ≠ t → Function.update s.thread_slots t v u = s.thread_slots u :=
    fun u hu => Function.update_of_ne hu ..
  refine ⟨h.taken, ?_, ?_, ?_⟩
  · intro u
    by_cases hu : u = t
    · subst hu
      simpa using h.taken u v (by rw [hpc]; rfl)
    · simpa [hother u hu] using h.slot u
  · intro u w left hw hl
    have hu : u ≠ t := by
      rintro rfl
      rw [hpc] at hw
      cases hw
    simpa [hother u hu] using h.checked u w left hw hl
  · intro u w hw
    have hu : u ≠ t := by
      rintro rfl
      rw [hpc] at hw
      cases hw
    simpa [hother u hu] using h.scanned u w hw

/-- Versions that grow leave it as it is, and so does everything that is not mentioned. -/
lemma Own.grow {s s' : State c Obj} (h : Own s) (hpc : s'.pc = s.pc)
    (hslots : s'.thread_slots = s.thread_slots) (hgrow : ∀ n, s.my_version n ≤ s'.my_version n) :
    Own s' := by
  refine ⟨?_, ?_, ?_, ?_⟩
  · intro t v hv
    rw [hpc] at hv
    exact (h.taken t v hv).trans (Nat.add_le_add_right (hgrow _) 1)
  · intro t
    rw [hslots]
    exact (h.slot t).trans (Nat.add_le_add_right (hgrow _) 1)
  · rw [hpc, hslots]
    exact h.checked
  · rw [hpc, hslots]
    exact h.scanned

lemma own_moves {s s' : State c Obj} {t : T} (h : Own s)
    (hgrow : ∀ n, s.my_version n ≤ s'.my_version n) (hs : Moves s t s') : Own s' := by
  have hstart : ∀ {v : ℕ}, s.pc t = .storeSlot v → ∀ w, (Pc.checkSlots v
      (c.members (c.home t))).taken = some w → w ≤ s.my_version (c.home t) + 1 := by
    intro v hpc w hw
    cases hw
    exact h.taken t v (by rw [hpc]; rfl)
  have hall : ∀ {v : ℕ}, ∀ slot : ℕ, ∀ w left, Pc.checkSlots v (c.members (c.home t)) =
      .checkSlots w left → t ∉ left → slot = w := by
    intro v slot w left hw ht
    cases hw
    exact absurd ((c.mem_members _ t).mpr rfl) ht
  cases hs with
  | read hpc =>
    refine h.goto ?_ (by simp) (by simp [Pc.scanned])
    intro v hv
    cases hv
    exact le_rfl
  | store v hpc hv =>
    exact ((h.raise hpc).goto (hstart hpc) (hall _) (by simp [Pc.scanned])).grow rfl rfl fun _ => le_rfl
  | keep v hpc hv => exact h.goto (hstart hpc) (hall _) (by simp [Pc.scanned])
  | lag v u us hpc hu | late v hpc hv => exact h.leave t
  | check v u us hpc hu =>
    refine h.goto ?_ ?_ (by simp [Pc.scanned])
    · intro w hw
      cases hw
      exact h.taken t v (by rw [hpc]; rfl)
    · intro w left hw ht
      cases hw
      by_cases htu : t = u
      · rw [htu, hu]
      · exact h.checked t v (u :: us) hpc (by simp [htu, ht])
  | scanned v hpc =>
    refine h.goto ?_ (by simp) ?_
    · intro w hw
      cases hw
      exact h.taken t v (by rw [hpc]; rfl)
    · intro w hw
      cases hw
      exact h.checked t v [] hpc (by simp)
  | load v hpc hv =>
    exact h.goOn (by rw [hpc]; rfl) (by rw [hpc]; rfl) (by simp [Pc.taken, eq_comm]) (by simp)
  | pass v hpc hv =>
    have hgo : Own (s.setPc t (.incCycles v)) :=
      h.goOn (by rw [hpc]; rfl) (by rw [hpc]; rfl) (by simp [Pc.taken, eq_comm]) (by simp)
    exact hgo.grow rfl rfl fun _ => le_rfl
  | lose v hpc hv => exact (h.leave t).grow rfl rfl fun _ => le_rfl
  | count v hpc =>
    have hgo : Own (s.setPc t (.writeNext v)) :=
      h.goOn (by rw [hpc]; rfl) (by rw [hpc]; rfl) (by simp [Pc.taken, eq_comm]) (by simp)
    exact hgo.grow rfl rfl fun _ => le_rfl
  | write v hpc hn | send v hpc hn => exact (h.leave t).grow rfl rfl hgrow

lemma own_step {s s' : State c Obj} {a : Act c Obj} (h : Own s)
    (hgrow : ∀ n, s.my_version n ≤ s'.my_version n) (hs : step s a = some s') : Own s' := by
  cases steps_of_step hs with
  | lists | deliver => exact h.grow rfl rfl hgrow
  | enter t o counter hpc =>
    have hgo : Own (s.setPc t .readVersion) :=
      h.goto (by simp [Pc.taken]) (by simp) (by simp [Pc.scanned])
    exact hgo.grow rfl rfl hgrow
  | moves t _ hm => exact own_moves h hgrow hm

/-! ### The ring -/

/-- The last version that passed an exchange is ahead of all that were sent, and no slot of its node
is behind it. -/
structure Ring (s : State c Obj) : Prop extends Own s where
  at_le : ∀ t, s.at_version (c.home t) ≤ s.thread_slots t
  won : ∀ t v, (s.pc t).won = some v →
    s.at_version (c.home t) = v ∧ ∀ w ∈ s.queue (c.home t), w < v
  alone : ∀ t u v w, c.home t = c.home u → (s.pc t).won = some v → (s.pc u).won = some w → t = u
  sorted : ∀ n, (s.queue n).Pairwise (· < ·)
  sent_le : ∀ n, ∀ w ∈ s.queue n, (w : ℤ) ≤ s.at_version n
  looped : ∀ n, c.next n = n → s.sent n = []

lemma ring_initial {s : State c Obj} (h : Initial s) : Ring s := by
  have hpc : ∀ t, s.pc t = .operating := fun t => (h.2 t).2.2.2
  refine ⟨own_initial h, ?_, ?_, ?_, ?_, ?_, fun n _ => (h.1 n).2.2.2⟩
  · intro t
    simp [(h.1 _).2.1, (h.2 t).1]
  · intro t v hv
    simp [hpc, Pc.won] at hv
  · intro t u v w _ hv
    simp [hpc, Pc.won] at hv
  · intro n
    simp [State.queue, (h.1 n).2.2.2]
  · intro n
    simp [State.queue, (h.1 n).2.2.2, (h.1 _).1, (h.1 n).2.1]

/-- Writes of a node arrive in their order. -/
def Act.InOrder : Act c Obj → Prop
  | .deliver _ position => position = 0
  | _ => True

/-- A version grows with every write that reaches it. -/
lemma version_step {s s' : State c Obj} {a : Act c Obj} (h : Ring s) (ha : a.InOrder)
    (hs : step s a = some s') (n : Fin c.nodes) : s.my_version n ≤ s'.my_version n := by
  have hset : ∀ m v, s.my_version m ≤ v → s.my_version n ≤ Function.update s.my_version m v n := by
    intro m v hv
    by_cases hm : n = m
    · subst hm
      simpa using hv
    · rw [Function.update_of_ne hm]
  cases steps_of_step hs with
  | lists | enter => exact le_rfl
  | moves t _ hm =>
    cases hm with
    | write v hpc hn =>
      have hlt := (h.won t v (by rw [hpc]; rfl)).2 (s.my_version (c.next (c.home t)))
        (by simp [State.queue])
      rw [hn] at hlt
      exact hset _ _ hlt.le
    | _ => exact le_rfl
  | deliver m i v hv =>
    cases ha
    have hsorted := h.sorted m
    have hmem := List.mem_of_getElem? hv
    exact hset _ _ ((List.pairwise_cons.mp hsorted).1 v hmem).le

/-! ### What one update of the ring keeps -/

/-- The rest of the ring does not look at the free lists, the counters, `cycles` and the slots'
history. -/
lemma Ring.congr {s s' : State c Obj} (h : Ring s) (ho : Own s')
    (hwon : ∀ t, (s'.pc t).won = (s.pc t).won) (hmy : s'.my_version = s.my_version)
    (hsent : s'.sent = s.sent) (hat : s'.at_version = s.at_version)
    (hslots : ∀ t, s.thread_slots t ≤ s'.thread_slots t) : Ring s' := by
  have hqueue : s'.queue = s.queue := by
    funext n
    simp only [State.queue, hmy, hsent]
  refine ⟨ho, ?_, ?_, ?_, ?_, ?_, ?_⟩
  · intro t
    have hle := h.at_le t
    have := hslots t
    rw [hat]
    omega
  · intro t v hv
    rw [hwon] at hv
    rw [hat, hqueue]
    exact h.won t v hv
  · intro t u v w htu hv hw
    rw [hwon] at hv hw
    exact h.alone t u v w htu hv hw
  · rw [hqueue]
    exact h.sorted
  · rw [hqueue, hat]
    exact h.sent_le
  · rw [hsent]
    exact h.looped

/-- Nobody on a node has won. -/
def State.Unwon (s : State c Obj) (n : Fin c.nodes) : Prop :=
  ∀ t, c.home t = n → (s.pc t).won = none

/-- A thread that sees another version in `at_version` after its check of all slots is the only one
to pass. -/
lemma Ring.unwon {s : State c Obj} (h : Ring s) (hi : Inv s) {t : T} {v : ℕ}
    (hv : (s.pc t).scanned = some v) (hat : s.at_version (c.home t) ≠ v) :
    s.Unwon (c.home t) := by
  intro u hu
  cases hw : (s.pc u).won with
  | none => rfl
  | some w =>
    have hslot := h.scanned u w (Pc.scanned_of_won hw)
    have hle := (hi.pc t).scanned hv u hu
    have hge := (hi.pc u).scanned (Pc.scanned_of_won hw) t hu.symm
    have hsame := h.scanned t v hv
    have hw' := (h.won u w hw).1
    rw [hu] at hw'
    exact absurd (by rw [hw']; norm_cast; omega) hat

/-- Whoever leaves before it has won, or after its write, was the only winner. -/
lemma Ring.leave {s : State c Obj} (h : Ring s) (t : T) : Ring (s.setPc t .operating) := by
  have hwon : ∀ u w, ((s.setPc t .operating).pc u).won = some w → (s.pc u).won = some w := by
    intro u w hw
    rcases s.setPc_cases t .operating u with ⟨hu, -⟩ | ⟨hu, -⟩ <;> rw [hu] at hw
    · cases hw
    · exact hw
  exact ⟨h.toOwn.leave t, h.at_le, fun u w hw => h.won u w (hwon u w hw),
    fun u u' w w' hu hw hw' => h.alone u u' w w' hu (hwon u w hw) (hwon u' w' hw'), h.sorted, h.sent_le,
    h.looped⟩

lemma Ring.unwon_leave {s : State c Obj} (h : Ring s) {t : T} {v : ℕ}
    (hv : (s.pc t).won = some v) : (s.setPc t .operating).Unwon (c.home t) := by
  intro u hu
  rcases s.setPc_cases t .operating u with ⟨hut, -⟩ | ⟨hut, hne⟩ <;> rw [hut]
  · rfl
  · cases hw : (s.pc u).won with
    | none => rfl
    | some w => exact absurd (h.alone u t w v hu hw hv) hne

/-- The exchange that finds another version. -/
lemma Ring.pass {s : State c Obj} (h : Ring s) (hi : Inv s) {t : T} {v : ℕ}
    (hpc : s.pc t = .exchangeAt v) (hat : s.at_version (c.home t) ≠ v) :
    Ring ({ s with at_version := Function.update s.at_version (c.home t) (v : ℤ) }.setPc t
      (.incCycles v)) := by
  have hscanned : (s.pc t).scanned = some v := by rw [hpc]; rfl
  have hunwon := h.unwon hi hscanned hat
  have hle : s.at_version (c.home t) < v := by
    have := h.at_le t
    rw [h.scanned t v hscanned] at this
    omega
  have hgo : Own (s.setPc t (.incCycles v)) :=
    h.goOn hscanned (by rw [hpc]; rfl) (by simp [Pc.taken, eq_comm]) (by simp)
  refine ⟨hgo.grow rfl rfl fun _ => le_rfl, ?_, ?_, ?_, h.sorted, ?_, h.looped⟩
  · intro u
    by_cases hu : c.home u = c.home t
    · simpa [State.setPc, hu] using (hi.pc t).scanned hscanned u hu
    · simpa [State.setPc, hu] using h.at_le u
  · intro u w hw
    rcases s.setPc_cases t (.incCycles v) u with ⟨hu, rfl⟩ | ⟨hu, -⟩
    · rw [State.setPc_pc, Function.update_self] at hw
      cases hw
      refine ⟨by simp [State.setPc], fun w hw => ?_⟩
      have := h.sent_le (c.home u) w hw
      omega
    · have hw' : (s.pc u).won = some w := by
        rw [← hu]
        exact hw
      have hne : c.home u ≠ c.home t := by
        intro hne
        rw [hunwon u hne] at hw'
        cases hw'
      exact ⟨by simpa [State.setPc, hne] using (h.won u w hw').1, (h.won u w hw').2⟩
  · intro u u' w w' hsame hw hw'
    have hback : ∀ u w, ((s.setPc t (.incCycles v)).pc u).won = some w → u ≠ t →
        (s.pc u).won = some w := by
      intro u w hw hu
      rwa [State.setPc_pc, Function.update_of_ne hu] at hw
    by_cases hu : u = t <;> by_cases hu' : u' = t
    · rw [hu, hu']
    · have := hback u' w' hw' hu'
      rw [hunwon u' (by rw [← hsame, hu])] at this
      cases this
    · have := hback u w hw hu
      rw [hunwon u (by rw [hsame, hu'])] at this
      cases this
    · exact h.alone u u' w w' hsame (hback u w hw hu) (hback u' w' hw' hu')
  · intro m w hw
    have hm := h.sent_le m w hw
    by_cases hmn : m = c.home t
    · subst hmn
      simp only [State.setPc, Function.update_self]
      omega
    · simpa [State.setPc, hmn] using hm

/-- The queue of one node changes, and with it the version of its successor. -/
lemma Ring.queue {s s' : State c Obj} (h : Ring s) {n : Fin c.nodes} (ho : Own s')
    (hpc : s'.pc = s.pc) (hslots : s'.thread_slots = s.thread_slots)
    (hat : s'.at_version = s.at_version) (hother : ∀ m, m ≠ n → s'.queue m = s.queue m)
    (hsorted : (s'.queue n).Pairwise (· < ·)) (hle : ∀ w ∈ s'.queue n, (w : ℤ) ≤ s.at_version n)
    (hwon : ∀ t v, c.home t = n → (s.pc t).won = some v → ∀ w ∈ s'.queue n, w < v)
    (hloop : c.next n = n → s'.sent n = []) : Ring s' := by
  refine ⟨ho, ?_, ?_, ?_, ?_, ?_, ?_⟩
  · rw [hslots, hat]
    exact h.at_le
  · intro t v hv
    rw [hpc] at hv
    rw [hat]
    refine ⟨(h.won t v hv).1, ?_⟩
    by_cases ht : c.home t = n
    · rw [ht]
      exact hwon t v ht hv
    · rw [hother _ ht]
      exact (h.won t v hv).2
  · rw [hpc]
    exact h.alone
  · intro m
    by_cases hm : m = n
    · exact hm ▸ hsorted
    · rw [hother m hm]
      exact h.sorted m
  · intro m
    rw [hat]
    by_cases hm : m = n
    · exact hm ▸ hle
    · rw [hother m hm]
      exact h.sent_le m
  · intro m hm
    by_cases hmn : m = n
    · rw [hmn] at hm ⊢
      exact hloop hm
    · have htail := congrArg List.tail (hother m hmn)
      simp only [State.queue, List.tail_cons] at htail
      rw [htail]
      exact h.looped m hm

/-! ### Every step -/

lemma toInt_of_lt {v : ℕ} (h : v < 2 ^ 31) : toInt v = v := by
  have hpow : (2 : ℕ) ^ 31 = 2147483648 := by norm_num
  rw [hpow] at h
  refine Int.bmod_eq_of_le ?_ ?_ <;> norm_num
  omega

lemma toInt_le (v : ℕ) : toInt v ≤ v := by
  rcases Nat.lt_or_ge v (2 ^ 31) with hv | hv
  · exact (toInt_of_lt hv).le
  · have hlt : toInt v < ((2 ^ 32 : ℕ) + 1) / 2 := Int.bmod_lt (by norm_num)
    have hpow : (2 : ℕ) ^ 31 = 2147483648 := by norm_num
    norm_num at hlt
    omega

lemma ring_moves {s s' : State c Obj} {t : T} (h : Ring s) (hi : Inv s) (hf : s.Fits)
    (ho : Own s') (hs : Moves s t s') : Ring s' := by
  have hquiet : ∀ pc : Pc T, ∀ pc' : Pc T, s.pc t = pc → pc.won = pc'.won → ∀ u,
      ((s.setPc t pc').pc u).won = (s.pc u).won := by
    intro pc pc' hpc hw u
    rcases s.setPc_cases t pc' u with ⟨hu, rfl⟩ | ⟨hu, -⟩ <;> rw [hu]
    rw [hpc, hw]
  have hfit : ∀ v, (s.pc t).taken = some v → toInt v = v := by
    intro v hv
    have := h.taken t v hv
    have := hf (c.home t)
    exact toInt_of_lt (by omega)
  cases hs with
  | read hpc => exact h.congr ho (hquiet _ _ hpc rfl) rfl rfl rfl fun _ => le_rfl
  | store v hpc hv =>
    refine h.congr ho (hquiet _ _ hpc rfl) rfl rfl rfl fun u => ?_
    by_cases hu : u = t
    · subst hu
      simpa [State.setPc, State.setLimbo] using hv.le
    · simp [State.setPc, State.setLimbo, hu]
  | keep v hpc | scanned v hpc | load v hpc | late v hpc | count v hpc =>
    exact h.congr ho (hquiet _ _ hpc rfl) rfl rfl rfl fun _ => le_rfl
  | lag v u us hpc | check v u us hpc =>
    exact h.congr ho (hquiet _ _ hpc rfl) rfl rfl rfl fun _ => le_rfl
  | pass v hpc hv =>
    rw [hfit v (by rw [hpc]; rfl)]
    exact h.pass hi hpc hv
  | lose v hpc hv =>
    refine h.congr ho (hquiet _ _ hpc rfl) rfl rfl ?_ fun _ => le_rfl
    rw [hfit v (by rw [hpc]; rfl), ← hv]
    exact Function.update_eq_self ..
  | write v hpc hn =>
    have hwon : (s.pc t).won = some v := by rw [hpc]; rfl
    have hat := (h.won t v hwon).1
    refine (h.leave t).queue (n := c.home t) ho rfl rfl rfl ?_ ?_ ?_ ?_ fun hn => h.looped _ hn
    · intro m hm
      have hne : c.next m ≠ c.home t := fun hne => hm (next_injective c (hne.trans hn.symm))
      simp [State.queue, State.setPc, hne]
    · simp [State.queue, State.setPc, hn, h.looped _ hn]
    · simp [State.queue, State.setPc, hn, h.looped _ hn, hat]
    · intro u w hu hw
      rw [h.unwon_leave hwon u hu] at hw
      cases hw
  | send v hpc hn =>
    have hwon : (s.pc t).won = some v := by rw [hpc]; rfl
    obtain ⟨hat, hlt⟩ := h.won t v hwon
    have hqueue : State.queue (State.setPc { s with
        sent := Function.update s.sent (c.home t) (s.sent (c.home t) ++ [v]) } t .operating)
        (c.home t) = s.queue (c.home t) ++ [v] := by
      simp [State.queue, State.setPc]
    refine (h.leave t).queue (n := c.home t) ho rfl rfl rfl ?_ ?_ ?_ ?_ fun h => absurd h hn
    · intro m hm
      simp [State.queue, State.setPc, hm]
    · rw [hqueue, List.pairwise_append]
      refine ⟨h.sorted _, List.pairwise_singleton _ _, ?_⟩
      intro w hw v' hv'
      rw [List.mem_singleton.mp hv']
      exact hlt w hw
    · intro w hw
      rw [hqueue] at hw
      rcases List.mem_append.mp hw with hw | hw
      · exact h.sent_le _ w hw
      · rw [List.mem_singleton.mp hw]
        exact hat.ge
    · intro u w hu hw
      rw [h.unwon_leave hwon u hu] at hw
      cases hw

/-- The oldest write of a node arrives. -/
lemma ring_deliver {s : State c Obj} {n : Fin c.nodes} {v : ℕ} (h : Ring s)
    (hv : (s.sent n)[0]? = some v)
    (ho : Own { s with
      my_version := Function.update s.my_version (c.next n) v
      sent := Function.update s.sent n ((s.sent n).eraseIdx 0) }) :
    Ring { s with
      my_version := Function.update s.my_version (c.next n) v
      sent := Function.update s.sent n ((s.sent n).eraseIdx 0) } := by
  obtain ⟨rest, hrest⟩ : ∃ rest, s.sent n = v :: rest := by
    cases hsent : s.sent n with
    | nil => simp [hsent] at hv
    | cons w rest =>
      simp only [hsent, List.getElem?_cons_zero, Option.some.injEq] at hv
      exact ⟨rest, by rw [hv]⟩
  have hqueue : s.queue n = s.my_version (c.next n) :: v :: rest := by rw [State.queue, hrest]
  have hnew : State.queue { s with
      my_version := Function.update s.my_version (c.next n) v
      sent := Function.update s.sent n ((s.sent n).eraseIdx 0) } n = v :: rest := by
    simp [State.queue, hrest]
  have hsorted := h.sorted n
  rw [hqueue] at hsorted
  have hsub : ∀ w ∈ v :: rest, w ∈ s.queue n := by
    intro w hw
    rw [hqueue]
    exact List.mem_cons_of_mem _ hw
  refine h.queue (n := n) ho rfl rfl rfl ?_ ?_ ?_ ?_ ?_
  · intro m hm
    have hne : c.next m ≠ c.next n := fun hne => hm (next_injective c hne)
    simp [State.queue, hm, hne]
  · rw [hnew]
    exact (List.pairwise_cons.mp hsorted).2
  · intro w hw
    rw [hnew] at hw
    exact h.sent_le n w (hsub w hw)
  · intro t u ht hu w hw
    rw [hnew] at hw
    have hlt := (h.won t u hu).2 w
    rw [ht] at hlt
    exact hlt (hsub w hw)
  · intro hn
    rw [h.looped n hn] at hrest
    cases hrest

theorem ring_step {s s' : State c Obj} {a : Act c Obj} (h : Ring s) (hi : Inv s) (hf : s.Fits)
    (ha : a.InOrder) (hs : step s a = some s') : Ring s' := by
  have ho := own_step h.toOwn (version_step h ha hs) hs
  cases steps_of_step hs with
  | lists => exact h.congr ho (fun _ => rfl) rfl rfl rfl fun _ => le_rfl
  | enter t o counter hpc =>
    refine h.congr ho (fun u => ?_) rfl rfl rfl fun _ => le_rfl
    rcases s.setPc_cases t .readVersion u with ⟨hu, rfl⟩ | ⟨hu, -⟩
    · simp [State.setPc, hpc, Pc.won]
    · exact congrArg Pc.won hu
  | moves t _ hm => exact ring_moves h hi hf ho hm
  | deliver n i v hv =>
    cases ha
    exact ring_deliver h hv ho

/-- On a node `at_version` has reached `v`, and whoever has won there and stands at `stage` has won a
later version. -/
def Beyond (stage : Pc T → Prop) (n : Fin c.nodes) (v : ℕ) (s : State c Obj) : Prop :=
  (v : ℤ) ≤ s.at_version n ∧
    ∀ t w, c.home t = n → (s.pc t).won = some w → stage (s.pc t) → v < w

lemma Beyond.goto {stage : Pc T → Prop} {n : Fin c.nodes} {v : ℕ} {s : State c Obj} {t : T}
    {pc : Pc T} (h : Beyond stage n v s)
    (hpc : ∀ w, c.home t = n → pc.won = some w → stage pc → v < w) :
    Beyond stage n v (s.setPc t pc) := by
  refine ⟨h.1, fun u w hu => ?_⟩
  by_cases hut : u = t
  · subst hut
    rw [State.setPc_pc, Function.update_self]
    exact hpc w hu
  · rw [State.setPc_pc, Function.update_of_ne hut]
    exact h.2 u w hu

lemma beyond_step {stage : Pc T → Prop} (hstage : ∀ w, stage (.writeNext w) → stage (.incCycles w))
    {n : Fin c.nodes} {v : ℕ} {s s' : State c Obj} {a : Act c Obj} (h : Ring s) (hf : s.Fits)
    (hb : Beyond stage n v s) (hs : step s a = some s') : Beyond stage n v s' := by
  have hnone : ∀ {pc : Pc T} {t : T}, pc.won = none →
      ∀ w, c.home t = n → pc.won = some w → stage pc → v < w := by
    intro pc t hpc w _ hw
    rw [hpc] at hw
    cases hw
  cases steps_of_step hs with
  | lists => exact hb
  | deliver => exact hb
  | enter t o counter hpc =>
    exact Beyond.goto (s := { s with counter := counter }) hb (hnone rfl)
  | moves t _ hm =>
    cases hm with
    | pass w hpc hw =>
      have hle := h.at_le t
      have hslot := h.scanned t w (by rw [hpc]; rfl)
      have htaken := h.taken t w (by rw [hpc]; rfl)
      have hfit := hf (c.home t)
      rw [toInt_of_lt (by omega)]
      refine Beyond.goto (s := { s with
        at_version := Function.update s.at_version (c.home t) (w : ℤ) }) ⟨?_, hb.2⟩ ?_
      · by_cases hn : n = c.home t
        · subst hn
          have := hb.1
          simp only [Function.update_self]
          omega
        · simpa [hn] using hb.1
      · intro w' hn hw' _
        cases hw'
        have := hb.1
        rw [← hn] at this
        omega
    | lose w hpc hw =>
      have htaken := h.taken t w (by rw [hpc]; rfl)
      have hfit := hf (c.home t)
      rw [toInt_of_lt (by omega), ← hw, Function.update_eq_self]
      exact hb.goto (hnone rfl)
    | count w hpc =>
      refine Beyond.goto (s := { s with cycles := _ }) hb ?_
      intro w' hn hw' hst
      cases hw'
      exact hb.2 t w hn (by rw [hpc]; rfl) (hpc ▸ hstage w hst)
    | read | store | keep | lag | check | scanned | load | late | write | send =>
      exact Beyond.goto (s := { s with .. }) hb (hnone rfl)

end ObjectCache.Ebr
