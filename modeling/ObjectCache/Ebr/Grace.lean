import ObjectCache.Ebr.Pool

/-! How far the epochs of a ring can drift apart, and when two rotations of the free lists are a
grace period. -/

namespace ObjectCache.Ebr

open Lib

set_option linter.unusedSectionVars false

variable {T Obj : Type} [DecidableEq T] [DecidableEq Obj] {c : Config T}

/-! ### The ring -/

lemma next_val (n : Fin c.nodes) : (c.next n).val = (n.val + 1) % c.nodes := rfl

lemma next_injective (c : Config T) : Function.Injective c.next := by
  intro a b h
  have hv : (a.val + 1) % c.nodes = (b.val + 1) % c.nodes := congrArg Fin.val h
  have ha := a.isLt
  have hb := b.isLt
  apply Fin.ext
  rcases Nat.lt_or_ge (a.val + 1) c.nodes with h1 | h1 <;>
    rcases Nat.lt_or_ge (b.val + 1) c.nodes with h2 | h2
  · rw [Nat.mod_eq_of_lt h1, Nat.mod_eq_of_lt h2] at hv
    omega
  · rw [Nat.mod_eq_of_lt h1, show b.val + 1 = c.nodes by omega, Nat.mod_self] at hv
    omega
  · rw [Nat.mod_eq_of_lt h2, show a.val + 1 = c.nodes by omega, Nat.mod_self] at hv
    omega
  · omega

lemma iterate_next_val (n : Fin c.nodes) (k : ℕ) :
    (c.next^[k] n).val = (n.val + k) % c.nodes := by
  induction k with
  | zero => simp [Nat.mod_eq_of_lt n.isLt]
  | succ k ih =>
    rw [Function.iterate_succ_apply', next_val, ih, Nat.mod_add_mod, Nat.add_assoc]

/-- Every node is reached from every node in one to `nodes` hops. -/
lemma exists_hops (a b : Fin c.nodes) : ∃ k, 1 ≤ k ∧ k ≤ c.nodes ∧ c.next^[k] a = b := by
  have ha := a.isLt
  have hb := b.isLt
  rcases Nat.lt_or_ge a.val b.val with h | h
  · refine ⟨b.val - a.val, by omega, by omega, Fin.ext ?_⟩
    rw [iterate_next_val, show a.val + (b.val - a.val) = b.val by omega, Nat.mod_eq_of_lt hb]
  · refine ⟨b.val + c.nodes - a.val, by omega, by omega, Fin.ext ?_⟩
    rw [iterate_next_val, show a.val + (b.val + c.nodes - a.val) = b.val + c.nodes by omega,
      Nat.add_mod_right, Nat.mod_eq_of_lt hb]

/-! ### Every step -/

/-- What a thread inside `match_version` knows about the slots of its node and its predecessor. -/
def Pc.Ok (c : Config T) (slots : T → ℕ) (t : T) : Pc T → Prop
  | .operating | .readVersion => True
  | .storeSlot v => (∀ u, c.next (c.home u) = c.home t → v ≤ slots u + 1) ∧
      (2 ≤ v → ∃ u, c.next (c.home u) = c.home t)
  | .checkSlots v left => ∀ u, c.home u = c.home t → u ∉ left → v ≤ slots u
  | .loadAt v | .exchangeAt v | .incCycles v | .writeNext v =>
    ∀ u, c.home u = c.home t → v ≤ slots u

/-- No version runs ahead of the slots of the node it came from. -/
structure Inv (s : State c Obj) : Prop where
  pc : ∀ t, (s.pc t).Ok c s.thread_slots t
  version : ∀ u, s.my_version (c.next (c.home u)) ≤ s.thread_slots u
  fed : ∀ n, s.my_version n ≠ 0 → ∃ u, c.next (c.home u) = n
  sent : ∀ u, ∀ v ∈ s.sent (c.home u), v ≤ s.thread_slots u
  sender : ∀ n, s.sent n ≠ [] → ∃ u, c.home u = n
  slot : ∀ t u, c.next (c.home u) = c.home t → s.thread_slots t ≤ s.thread_slots u + 1
  slot_fed : ∀ t, 2 ≤ s.thread_slots t → ∃ u, c.next (c.home u) = c.home t

lemma Pc.Ok.mono {slots slots' : T → ℕ} {t : T} {pc : Pc T} (h : pc.Ok c slots t)
    (hs : ∀ u, slots u ≤ slots' u) : pc.Ok c slots' t := by
  cases pc with
  | operating | readVersion => trivial
  | storeSlot v => exact ⟨fun u hu => (h.1 u hu).trans (Nat.add_le_add_right (hs u) 1), h.2⟩
  | checkSlots v left => exact fun u hu hl => (h u hu hl).trans (hs u)
  | loadAt v | exchangeAt v | incCycles v | writeNext v => exact fun u hu => (h u hu).trans (hs u)

lemma inv_initial {s : State c Obj} (h : Initial s) : Inv s where
  pc t := by simp [Pc.Ok, (h.2 t).2.2.2]
  version u := by simp [(h.1 _).1]
  fed n hn := by simp [(h.1 n).1] at hn
  sent u v hv := by simp [(h.1 _).2.2.2] at hv
  sender n hn := by simp [(h.1 n).2.2.2] at hn
  slot t u _ := by simp [(h.2 t).1]
  slot_fed t ht := by simp [(h.2 t).1] at ht

lemma Inv.setPc {s : State c Obj} (h : Inv s) {t : T} {pc : Pc T} (ho : pc.Ok c s.thread_slots t) :
    Inv (s.setPc t pc) where
  pc u := by
    by_cases hu : u = t
    · subst hu
      simpa [State.setPc] using ho
    · simpa [State.setPc, hu] using h.pc u
  version := h.version
  fed := h.fed
  sent := h.sent
  sender := h.sender
  slot := h.slot
  slot_fed := h.slot_fed

/-- The free lists and the counters of a thread do not enter the invariant. -/
lemma Inv.congr {s s' : State c Obj} (h : Inv s) (hp : s'.pc = s.pc)
    (hm : s'.my_version = s.my_version) (hs : s'.sent = s.sent)
    (ht : s'.thread_slots = s.thread_slots) : Inv s' where
  pc := by rw [hp, ht]; exact h.pc
  version := by rw [hm, ht]; exact h.version
  fed := by rw [hm]; exact h.fed
  sent := by rw [hs, ht]; exact h.sent
  sender := by rw [hs]; exact h.sender
  slot := by rw [ht]; exact h.slot
  slot_fed := by rw [ht]; exact h.slot_fed

/-- A thread raises its own slot to the version it has read. -/
lemma Inv.storeSlot {s : State c Obj} (h : Inv s) {t : T} {v : ℕ}
    (hpc : s.pc t = .storeSlot v) (hv : s.thread_slots t < v) :
    Inv { s with thread_slots := Function.update s.thread_slots t v } := by
  have hok := h.pc t
  rw [hpc] at hok
  have hle : ∀ u, s.thread_slots u ≤ Function.update s.thread_slots t v u := fun u => by
    by_cases hu : u = t
    · subst hu
      simpa using hv.le
    · simp [hu]
  refine ⟨fun u => (h.pc u).mono hle, fun u => (h.version u).trans (hle u), h.fed,
    fun u w hw => (h.sent u w hw).trans (hle u), h.sender, fun a u ha => ?_, fun a ha => ?_⟩
  · by_cases hat : a = t
    · subst hat
      simpa using (hok.1 u ha).trans (Nat.add_le_add_right (hle u) 1)
    · simpa [hat] using (h.slot a u ha).trans (Nat.add_le_add_right (hle u) 1)
  · by_cases hat : a = t
    · subst hat
      exact hok.2 (by simpa using ha)
    · exact h.slot_fed a (by simpa [hat] using ha)

lemma Inv.setVersion {s : State c Obj} (h : Inv s) {n : Fin c.nodes} {v : ℕ}
    (hv : ∀ u, c.home u = n → v ≤ s.thread_slots u) (hn : ∃ u, c.home u = n) :
    Inv { s with my_version := Function.update s.my_version (c.next n) v } := by
  refine ⟨h.pc, fun u => ?_, fun m hm => ?_, h.sent, h.sender, h.slot, h.slot_fed⟩
  · by_cases hu : c.next (c.home u) = c.next n
    · simpa [hu] using hv u (next_injective c hu)
    · simpa [hu] using h.version u
  · by_cases hmn : m = c.next n
    · obtain ⟨u, rfl⟩ := hn
      exact ⟨u, hmn.symm⟩
    · exact h.fed m (by simpa [hmn] using hm)

lemma Inv.setSent {s : State c Obj} (h : Inv s) {n : Fin c.nodes} {l : List ℕ}
    (hv : ∀ u, c.home u = n → ∀ v ∈ l, v ≤ s.thread_slots u) (hn : l ≠ [] → ∃ u, c.home u = n) :
    Inv { s with sent := Function.update s.sent n l } := by
  refine ⟨h.pc, h.version, h.fed, fun u v hm => ?_, fun m hm => ?_, h.slot, h.slot_fed⟩
  · by_cases hu : c.home u = n
    · exact hv u hu v (by simpa [hu] using hm)
    · exact h.sent u v (by simpa [hu] using hm)
  · by_cases hmn : m = n
    · subst hmn
      exact hn (by simpa using hm)
    · exact h.sender m (by simpa [hmn] using hm)

lemma inv_matchStep {s s' : State c Obj} {t : T} (h : Inv s) (hs : matchStep s t = some s') :
    Inv s' := by
  have hok := h.pc t
  unfold matchStep at hs
  cases hpc : s.pc t with
  | operating => simp [hpc] at hs
  | readVersion =>
    simp only [hpc, Option.some.injEq] at hs
    subst hs
    refine h.setPc ⟨fun u hu => ?_, fun hv => ?_⟩
    · have := h.version u
      rw [hu] at this
      omega
    · exact h.fed _ (by omega)
  | storeSlot v =>
    simp only [hpc] at hs
    split_ifs at hs with hv
    · cases hs
      have h' := h.storeSlot hpc hv
      have hl : Inv (State.setLimbo { s with
          thread_slots := Function.update s.thread_slots t v } t (s.limbo t).rotate) :=
        h'.congr rfl rfl rfl rfl
      exact hl.setPc fun u hu hn => absurd ((c.mem_members _ u).mpr hu) hn
    · cases hs
      exact h.setPc fun u hu hl => absurd ((c.mem_members _ u).mpr hu) hl
  | checkSlots v left =>
    rw [hpc] at hok
    cases left with
    | nil =>
      simp only [hpc, Option.some.injEq] at hs
      subst hs
      exact h.setPc fun u hu => hok u hu (by simp)
    | cons u us =>
      simp only [hpc, Option.some.injEq] at hs
      subst hs
      split_ifs with hu
      · exact h.setPc trivial
      · refine h.setPc fun w hw hl => ?_
        by_cases hwu : w = u
        · subst hwu
          exact (not_not.mp hu).ge
        · exact hok w hw (by simp [hwu, hl])
  | loadAt v =>
    simp only [hpc, Option.some.injEq] at hs
    subst hs
    rw [hpc] at hok
    split_ifs
    · exact h.setPc hok
    · exact h.setPc trivial
  | exchangeAt v =>
    simp only [hpc, Option.some.injEq] at hs
    subst hs
    rw [hpc] at hok
    have h' : Inv { s with at_version := Function.update s.at_version (c.home t) (toInt v) } :=
      h.congr rfl rfl rfl rfl
    refine h'.setPc ?_
    split_ifs
    · exact hok
    · exact trivial
  | incCycles v =>
    simp only [hpc, Option.some.injEq] at hs
    subst hs
    rw [hpc] at hok
    have h' : Inv { s with cycles := Function.update s.cycles (c.home t) (s.cycles (c.home t) + 1) } :=
      h.congr rfl rfl rfl rfl
    exact h'.setPc hok
  | writeNext v =>
    simp only [hpc] at hs
    rw [hpc] at hok
    split_ifs at hs with hn
    · cases hs
      have hv := h.setVersion (n := c.home t) hok ⟨t, rfl⟩
      rw [hn] at hv
      exact hv.setPc trivial
    · cases hs
      refine Inv.setPc (h.setSent (fun u hu w hw => ?_) fun _ => ⟨t, rfl⟩) trivial
      rcases List.mem_append.mp hw with hw | hw
      · exact h.sent u w (by rwa [hu])
      · rw [List.mem_singleton.mp hw]
        exact hok u hu

theorem inv_step {s s' : State c Obj} {a : Act c Obj} (h : Inv s) (hs : step s a = some s') :
    Inv s' := by
  cases a with
  | deallocate t x | requeue t x =>
    simp only [step] at hs
    split at hs
    · cases hs
      exact h.congr rfl rfl rfl rfl
    · cases hs
  | allocate t x =>
    simp only [step] at hs
    split at hs
    · cases hs
      exact h
    · cases hs
      exact h.congr rfl rfl rfl rfl
    · cases hs
  | matchVersion t o =>
    simp only [step] at hs
    split at hs
    · split_ifs at hs <;> cases hs
      · exact h.congr rfl rfl rfl rfl
      · have h' : Inv { s with counter := Function.update s.counter t (s.counter t + 1) } :=
          h.congr rfl rfl rfl rfl
        exact h'.setPc trivial
    · cases hs
  | next t => exact inv_matchStep h hs
  | deliver n i =>
    simp only [step] at hs
    split at hs
    · cases hs
    · rename_i v hv
      cases hs
      have hm := List.mem_of_getElem? hv
      have hn := h.sender n (List.ne_nil_of_mem hm)
      have h' := h.setVersion (n := n) (v := v) (fun u hu => h.sent u v (by rwa [hu])) hn
      exact h'.setSent (fun u hu w hw => h.sent u w (by rw [hu]; exact List.mem_of_mem_eraseIdx hw))
        fun _ => hn

/-- A slot is at most one ahead of every slot for each hop between their nodes. -/
theorem slot_le_hops {s : State c Obj} (h : Inv s) {t u : T} {k : ℕ}
    (hk : c.next^[k + 1] (c.home u) = c.home t) : s.thread_slots t ≤ s.thread_slots u + (k + 1) := by
  induction k generalizing t with
  | zero => exact h.slot t u hk
  | succ k ih =>
    rcases Nat.lt_or_ge (s.thread_slots t) 2 with ht | ht
    · omega
    · obtain ⟨w, hw⟩ := h.slot_fed t ht
      rw [Function.iterate_succ_apply', ← hw] at hk
      have hwu := ih (next_injective c hk)
      have htw := h.slot t w hw
      omega

end ObjectCache.Ebr
