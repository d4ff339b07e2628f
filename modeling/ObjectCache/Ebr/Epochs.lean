import ObjectCache.Ebr.Solo

/-! The epoch of a node that is linked to itself: a round of reports moves it on just when every
thread has raised its slot. -/

namespace ObjectCache.Ebr

open Lib

set_option linter.unusedSectionVars false

variable {T Obj : Type} [DecidableEq T] [DecidableEq Obj] {c : Config T}

/-! ### Every step of self-linked nodes -/

/-- `at_version` is ahead of the version only while a thread has yet to write. -/
structure Solo (s : State c Obj) : Prop extends Own s where
  at_le : ∀ n, s.at_version n ≤ s.my_version n ∨ s.at_version n ≤ s.my_version n + 1 ∧
    ∃ t, c.home t = n ∧ (s.pc t).won = some (s.my_version n + 1)
  quiet : ∀ n, s.sent n = []

lemma solo_initial {s : State c Obj} (h : Initial s) : Solo s where
  toOwn := own_initial h
  at_le n := .inl (by simp [(h.1 n).1, (h.1 n).2.1])
  quiet n := (h.1 n).2.2.2

/-- Threads that do not win or write, and other nodes, keep the bound. -/
lemma Solo.at_congr {s s' : State c Obj} (h : Solo s) {n : Fin c.nodes}
    (hat : s'.at_version n = s.at_version n) (hmy : s'.my_version n = s.my_version n)
    (hwon : ∀ t, c.home t = n → (s.pc t).won = some (s.my_version n + 1) →
      (s'.pc t).won = some (s.my_version n + 1)) :
    s'.at_version n ≤ s'.my_version n ∨ s'.at_version n ≤ s'.my_version n + 1 ∧
      ∃ t, c.home t = n ∧ (s'.pc t).won = some (s'.my_version n + 1) := by
  rw [hat, hmy]
  rcases h.at_le n with hle | ⟨hle, t, ht, hw⟩
  · exact .inl hle
  · exact .inr ⟨hle, t, ht, hwon t ht hw⟩

variable (hloop : ∀ n, c.next n = n)
include hloop

lemma solo_moves {s s' : State c Obj} {t : T} (h : Solo s) (hi : Inv s)
    (hs : Moves s t s') : Solo s' := by
  have hwas : ∀ v, (s.pc t).scanned = some v → s.my_version (c.home t) ≤ v := by
    intro v hv
    rw [← h.scanned t v hv, ← hloop (c.home t)]
    exact hi.version t
  have hgrow : ∀ n, s.my_version n ≤ s'.my_version n := by
    intro n
    cases hs with
    | write v hpc hn =>
      by_cases hn : n = c.home t
      · subst hn
        simpa [State.setPc] using hwas v (by rw [hpc]; rfl)
      · simp [State.setPc, hn]
    | _ => exact le_rfl
  have ho := own_moves h.toOwn hgrow hs
  -- the other threads keep what they have won
  have hother : ∀ pc : Pc T, s.pc t = pc → ∀ s₁ : State c Obj, s₁.pc = s.pc → ∀ pc' : Pc T,
      (pc.won = none ∨ pc'.won = pc.won) → ∀ n u, c.home u = n →
      (s.pc u).won = some (s.my_version n + 1) →
      ((s₁.setPc t pc').pc u).won = some (s.my_version n + 1) := by
    intro pc hpc s₁ hs₁ pc' hw n u _ hu
    rcases s₁.setPc_cases t pc' u with ⟨hut, rfl⟩ | ⟨hut, -⟩ <;> rw [hut]
    · rw [hpc] at hu
      rcases hw with hw | hw
      · rw [hw] at hu
        cases hu
      · rwa [hw]
    · rwa [hs₁]
  cases hs with
  | read hpc =>
    exact ⟨ho, fun n => h.at_congr rfl rfl (hother _ hpc s rfl _ (.inl rfl) n), h.quiet⟩
  | store v hpc hv =>
    exact ⟨ho, fun n => h.at_congr rfl rfl (hother _ hpc _ rfl _ (.inl rfl) n), h.quiet⟩
  | keep v hpc | scanned v hpc | load v hpc | late v hpc =>
    exact ⟨ho, fun n => h.at_congr rfl rfl (hother _ hpc s rfl _ (.inl rfl) n), h.quiet⟩
  | lag v u us hpc | check v u us hpc =>
    exact ⟨ho, fun n => h.at_congr rfl rfl (hother _ hpc s rfl _ (.inl rfl) n), h.quiet⟩
  | count v hpc =>
    exact ⟨ho, fun n => h.at_congr rfl rfl (hother _ hpc _ rfl (.writeNext v) (.inr rfl) n), h.quiet⟩
  | pass v hpc hv =>
    refine ⟨ho, fun n => ?_, h.quiet⟩
    by_cases hn : n = c.home t
    · subst hn
      have htaken := h.taken t v (by rw [hpc]; rfl)
      have hle := toInt_le v
      simp only [State.setPc, Function.update_self]
      rcases Nat.lt_or_ge (s.my_version (c.home t)) v with hlt | hge
      · have hv : v = s.my_version (c.home t) + 1 := by omega
        exact .inr ⟨by omega, t, rfl, by simp [Pc.won, hv]⟩
      · exact .inl (by omega)
    · exact h.at_congr (by simp [State.setPc, hn]) rfl (hother _ hpc _ rfl _ (.inl rfl) n)
  | lose v hpc hv =>
    refine ⟨ho, fun n => ?_, h.quiet⟩
    by_cases hn : n = c.home t
    · subst hn
      have hle := toInt_le v
      simp only [State.setPc, Function.update_self]
      rcases h.at_le (c.home t) with hat | ⟨hat, u, hu, hw⟩
      · exact .inl (by omega)
      · refine .inr ⟨by omega, u, hu, ?_⟩
        exact hother _ hpc s rfl .operating (.inl rfl) _ u hu hw
    · exact h.at_congr (by simp [State.setPc, hn]) rfl (hother _ hpc _ rfl _ (.inl rfl) n)
  | write v hpc hn =>
    refine ⟨ho, fun n => ?_, h.quiet⟩
    have hback : ∀ u, u ≠ t → (Function.update s.pc t .operating u).won = (s.pc u).won := by
      intro u hu
      rw [Function.update_of_ne hu]
    by_cases hn : n = c.home t
    · subst hn
      have htaken := h.taken t v (by rw [hpc]; rfl)
      have hge := hwas v (by rw [hpc]; rfl)
      simp only [State.setPc, Function.update_self]
      rcases h.at_le (c.home t) with hat | ⟨hat, u, hu, hw⟩
      · exact .inl (by omega)
      · rcases Nat.eq_or_lt_of_le hge with hv | hv
        · have hut : u ≠ t := by
            rintro rfl
            rw [hpc] at hw
            cases hw
            omega
          exact .inr ⟨by omega, u, hu, by rw [hback u hut, hw, hv]⟩
        · exact .inl (by omega)
    · refine h.at_congr rfl (by simp [State.setPc, hn]) fun u hu hw => ?_
      have hut : u ≠ t := by
        rintro rfl
        exact hn hu.symm
      simp only [State.setPc]
      rw [hback u hut, hw]
  | send v hpc hn => exact absurd (hloop _) hn

lemma solo_step {s s' : State c Obj} {a : Act c Obj} (h : Solo s) (hi : Inv s)
    (hs : step s a = some s') : Solo s' := by
  cases steps_of_step hs with
  | lists => exact ⟨h.toOwn.grow rfl rfl fun _ => le_rfl, h.at_le, h.quiet⟩
  | enter t o counter hpc =>
    have hgo : Own (s.setPc t .readVersion) :=
      h.toOwn.goto (by simp [Pc.taken]) (by simp) (by simp [Pc.scanned])
    refine ⟨hgo.grow rfl rfl fun _ => le_rfl, fun n => h.at_congr rfl rfl fun u _ hw => ?_, h.quiet⟩
    rcases s.setPc_cases t .readVersion u with ⟨hu, rfl⟩ | ⟨hu, -⟩
    · rw [hpc] at hw
      cases hw
    · exact (congrArg Pc.won hu).trans hw
  | moves t _ hm => exact solo_moves hloop h hi hm
  | deliver n i v hv =>
    rw [h.quiet n] at hv
    cases hv

lemma solo_of_reachable {s : State c Obj} (h : (machine c Obj).Reachable s) : Solo s := by
  have hboth : Inv s ∧ Solo s :=
    h.invariant (I := fun s => Inv s ∧ Solo s) (fun _ h => ⟨inv_initial h, solo_initial h⟩)
      fun _ _ _ h hs => ⟨inv_step h.1 hs, solo_step hloop h.2 h.1 hs⟩
  exact hboth.2

/-! ### Reports -/

omit hloop

/-- Between two calls: no slot is ahead of the version by more than one, and `at_version` is not. -/
structure Level (s : State c Obj) (n : Fin c.nodes) : Prop where
  idle : ∀ t, s.pc t = .operating
  slot : ∀ t, c.home t = n → s.thread_slots t ≤ s.my_version n + 1
  at_le : s.at_version n ≤ s.my_version n

lemma Solo.level {s : State c Obj} (h : Solo s) (hidle : ∀ t, s.pc t = .operating)
    (n : Fin c.nodes) : Level s n := by
  refine ⟨hidle, fun t ht => ht ▸ h.slot t, ?_⟩
  rcases h.at_le n with hle | ⟨-, t, -, hw⟩
  · exact hle
  · rw [hidle t] at hw
    cases hw

lemma Level.withCounter {s : State c Obj} {n : Fin c.nodes} (h : Level s n) (counter : T → ℕ) :
    Level (s.withCounter counter) n := ⟨h.idle, h.slot, h.at_le⟩

lemma entered_slots {s : State c Obj} {t : T} (h : s.thread_slots t ≤ s.my_version (c.home t) + 1)
    (u : T) : (s.entered t).thread_slots u =
      if u = t then s.my_version (c.home t) + 1 else s.thread_slots u := by
  rw [State.entered]
  by_cases hlt : s.thread_slots t < s.my_version (c.home t) + 1
  · by_cases hu : u = t <;> simp [hlt, hu, State.setLimbo]
  · rw [if_neg hlt]
    by_cases hu : u = t
    · subst hu
      rw [if_pos rfl]
      omega
    · rw [if_neg hu]

lemma entered_version (s : State c Obj) (t : T) : (s.entered t).my_version = s.my_version := by
  rw [State.entered]
  split_ifs <;> rfl

lemma entered_at (s : State c Obj) (t : T) : (s.entered t).at_version = s.at_version := by
  rw [State.entered]
  split_ifs <;> rfl

/-- A call that does not wait raises the slot of its thread. It moves the version on just when all
other slots have been raised before. -/
lemma Level.closed {s : State c Obj} {n : Fin c.nodes} {t : T} (h : Level s n) (hn : c.next n = n)
    (ht : c.home t = n) :
    Level (s.closed t) n ∧
      (((s.closed t).my_version n = s.my_version n + 1 ∧
          ∀ u, c.home u = n → u ≠ t → s.thread_slots u = s.my_version n + 1) ∨
        ((s.closed t).my_version n = s.my_version n ∧
          (∀ u, (s.closed t).thread_slots u =
            if u = t then s.my_version n + 1 else s.thread_slots u) ∧
          ∃ u, c.home u = n ∧ u ≠ t ∧ s.thread_slots u ≠ s.my_version n + 1)) := by
  subst ht
  set v := s.my_version (c.home t) + 1 with hv
  have hslots := entered_slots (h.slot t rfl)
  rw [← hv] at hslots
  have hslot_le : ∀ u, c.home u = c.home t → (s.entered t).thread_slots u ≤ v := by
    intro u hu
    rw [hslots]
    split_ifs
    · exact le_rfl
    · exact h.slot u hu
  by_cases hcloses : (s.entered t).Closes (c.home t) v
  · have hclosed : s.closed t = (s.entered t).advanced (c.home t) v := by
      rw [State.closed, if_pos hcloses]
    have hmy : (s.closed t).my_version (c.home t) = v := by
      rw [hclosed]
      simp [State.advanced, hn]
    have hkeep : (s.closed t).thread_slots = (s.entered t).thread_slots := by
      rw [hclosed]
      simp [State.advanced, hn]
    refine ⟨⟨fun u => by rw [State.closed_pc, h.idle], fun u hu => ?_, ?_⟩, .inl ⟨hmy, ?_⟩⟩
    · rw [hkeep, hmy]
      exact (hslot_le u hu).trans (Nat.le_succ v)
    · rw [hmy, hclosed]
      simpa [State.advanced, hn] using toInt_le v
    · intro u hu hut
      have hall := hcloses.1 u ((c.mem_members _ u).mpr hu)
      rwa [hslots, if_neg hut] at hall
  · have hclosed : s.closed t = s.entered t := by rw [State.closed, if_neg hcloses]
    have hmy : (s.closed t).my_version (c.home t) = s.my_version (c.home t) := by
      rw [hclosed, entered_version]
    refine ⟨⟨fun u => by rw [State.closed_pc, h.idle], fun u hu => ?_, ?_⟩,
      .inr ⟨hmy, fun u => by rw [hclosed, hslots], ?_⟩⟩
    · rw [hclosed, entered_version]
      exact hslot_le u hu
    · rw [hmy, hclosed, entered_at]
      exact h.at_le
    · by_contra hall
      refine hcloses ⟨fun u hu => ?_, ?_⟩
      · rw [hslots]
        split_ifs with hut
        · rfl
        · by_contra hne
          exact hall ⟨u, (c.mem_members _ u).mp hu, hut, hne⟩
      · have := h.at_le
        rw [entered_at]
        omega

section Growth

variable (hpos : 0 < c.ops_per_epoch)
include hpos

lemma Level.report {s : State c Obj} {n : Fin c.nodes} {t : T} (h : Level s n) (hn : c.next n = n)
    (ht : c.home t = n) (o : Bool) :
    Level (s.report t o) n ∧ s.my_version n ≤ (s.report t o).my_version n := by
  cases o with
  | true =>
    have hreport : s.report t true = _ := State.matchVersion_true (h.idle t)
    rw [hreport]
    exact ⟨h.withCounter _, le_rfl⟩
  | false =>
    rw [State.report_false (h.idle t) hpos]
    obtain ⟨hlevel, hmy⟩ := h.closed hn ht
    refine ⟨hlevel.withCounter _, ?_⟩
    have hsame : ((s.closed t).withCounter
        (Function.update s.counter t (s.counter t + c.ops_per_epoch))).my_version n =
        (s.closed t).my_version n := rfl
    rw [hsame]
    rcases hmy with ⟨hmy, -⟩ | ⟨hmy, -⟩ <;> omega

lemma round_le {s : State c Obj} {n : Fin c.nodes} (h : Level s n) (hn : c.next n = n)
    (hhome : ∀ t, c.home t = n) (reports : List (T × Bool)) :
    s.my_version n ≤ (s.round reports).my_version n := by
  induction reports generalizing s with
  | nil => exact le_rfl
  | cons r rest ih =>
    obtain ⟨hlevel, hle⟩ := h.report hpos hn (hhome r.1) r.2
    exact hle.trans (ih hlevel)

/-- The induction over the reports: the epoch moves on just when some thread reports by ordinary
calls, and so do all whose slot has not been raised before. -/
lemma round_grows {s : State c Obj} {n : Fin c.nodes} (h : Level s n) (hn : c.next n = n)
    (hhome : ∀ t, c.home t = n) (reports : List (T × Bool)) :
    s.my_version n < (s.round reports).my_version n ↔
      (∃ t, (t, false) ∈ reports) ∧
        ∀ t, s.thread_slots t = s.my_version n + 1 ∨ (t, false) ∈ reports := by
  induction reports generalizing s with
  | nil => simp [State.round]
  | cons r rest ih =>
    obtain ⟨t, o⟩ := r
    have hround : s.round ((t, o) :: rest) = (s.report t o).round rest := rfl
    rw [hround]
    obtain ⟨hlevel, -⟩ := h.report hpos hn (hhome t) o
    cases o with
    | true =>
      have hreport : s.report t true = _ := State.matchVersion_true (h.idle t)
      have hih := ih hlevel
      rw [hreport] at hih ⊢
      simpa [State.withCounter] using hih
    | false =>
      have hreport := State.report_false (h.idle t) hpos
      obtain ⟨-, ⟨hmy, hall⟩ | ⟨hmy, hslots, u, hu, hut, hlag⟩⟩ := h.closed hn (hhome t)
      · have hle := round_le hpos hlevel hn hhome rest
        have hnew : (s.report t false).my_version n = (s.closed t).my_version n := by
          rw [hreport]
          rfl
        refine iff_of_true (by omega) ⟨⟨t, by simp⟩, fun u => ?_⟩
        by_cases hut : u = t
        · exact .inr (by simp [hut])
        · exact .inl (hall u (hhome u) hut)
      · have hih := ih hlevel
        have hnew : (s.report t false).my_version n = s.my_version n := by
          rw [hreport]
          exact hmy
        have hnewSlots : ∀ w, (s.report t false).thread_slots w =
            if w = t then s.my_version n + 1 else s.thread_slots w := by
          rw [hreport]
          exact hslots
        rw [hnew] at hih
        simp only [hnewSlots] at hih
        rw [hih]
        constructor
        · rintro ⟨-, hrest⟩
          refine ⟨⟨t, by simp⟩, fun w => ?_⟩
          rcases hrest w with hw | hw
          · by_cases hwt : w = t
            · exact .inr (by simp [hwt])
            · exact .inl (by simpa [hwt] using hw)
          · exact .inr (by simp [hw])
        · rintro ⟨-, hrest⟩
          refine ⟨⟨u, ?_⟩, fun w => ?_⟩
          · rcases hrest u with hw | hw
            · exact absurd hw hlag
            · simpa [hut] using hw
          · by_cases hwt : w = t
            · simp [hwt]
            · simpa [hwt] using hrest w

/-- Each thread reports once. -/
structure Turn (reports : List (T × Bool)) : Prop where
  once : (reports.map Prod.fst).Nodup
  all : ∀ t, t ∈ reports.map Prod.fst

/-- On a single node a round of reports moves the epoch on just when a thread reports by ordinary
calls and the slots of those that override have been raised before. -/
theorem round_grows_iff (hone : c.nodes = 1) {s : State c Obj}
    (hs : (machine c Obj).Reachable s) (hidle : ∀ t, s.pc t = .operating) (n : Fin c.nodes)
    (reports : List (T × Bool)) (hturn : Turn reports) :
    s.my_version n < (s.round reports).my_version n ↔
      (∃ t, (t, false) ∈ reports) ∧
        ∀ t, (t, true) ∈ reports → s.thread_slots t = s.my_version n + 1 := by
  have hsame : ∀ a b : Fin c.nodes, a = b := by
    intro a b
    have ha := a.isLt
    have hb := b.isLt
    exact Fin.ext (by omega)
  have hlevel := (solo_of_reachable (fun _ => hsame _ _) hs).level hidle n
  rw [round_grows hpos hlevel (hsame _ _) (fun _ => hsame _ _) reports]
  refine and_congr_right fun _ => forall_congr' fun t => ?_
  constructor
  · rintro (h | h) ho
    · exact h
    · have := List.inj_on_of_nodup_map hturn.once h ho rfl
      simp at this
  · intro h
    obtain ⟨⟨t', o⟩, hmem, rfl⟩ := List.mem_map.mp (hturn.all t)
    cases o with
    | true => exact .inl (h hmem)
    | false => exact .inr hmem

end Growth

/-! ### Two threads on one node -/

theorem round_grows_ordinary :
    fresh.my_version (solo.home true) <
      (fresh.round [(true, false), (false, false)]).my_version (solo.home true) :=
  (round_grows_iff (by decide) rfl (.init initial_fresh) (fun _ => rfl) _ _
    ⟨by decide, by decide⟩).mpr ⟨⟨true, by decide⟩, by decide⟩

/-- A thread that overrides the epoch holds it up. -/
theorem not_round_grows_override :
    ¬ ∀ (s : State solo ℕ) (reports : List (Bool × Bool)), (machine solo ℕ).Reachable s →
      (∀ t, s.pc t = .operating) → Turn reports →
      s.my_version (solo.home true) < (s.round reports).my_version (solo.home true) := by
  intro h
  have hgrows := h fresh [(true, false), (false, true)] (.init initial_fresh) (fun _ => rfl)
    ⟨by decide, by decide⟩
  exact absurd hgrows (by decide)

end ObjectCache.Ebr
