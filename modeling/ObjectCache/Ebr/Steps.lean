import ObjectCache.Ebr.Pool

/-! What a step of the pool can do, one constructor for each outcome. -/

namespace ObjectCache.Ebr

open Lib

variable {T Obj : Type} [DecidableEq T] [DecidableEq Obj] {c : Config T}

/-- The outcomes of one shared access of `match_version`. -/
inductive Moves (s : State c Obj) (t : T) : State c Obj → Prop
  | read (h : s.pc t = .readVersion) :
    Moves s t (s.setPc t (.storeSlot (s.my_version (c.home t) + 1)))
  | store (v : ℕ) (h : s.pc t = .storeSlot v) (hv : s.thread_slots t < v) :
    Moves s t (({ s with thread_slots := Function.update s.thread_slots t v }.setLimbo t
      (s.limbo t).rotate).setPc t (.checkSlots v (c.members (c.home t))))
  | keep (v : ℕ) (h : s.pc t = .storeSlot v) (hv : ¬ s.thread_slots t < v) :
    Moves s t (s.setPc t (.checkSlots v (c.members (c.home t))))
  | lag (v : ℕ) (u : T) (us : List T) (h : s.pc t = .checkSlots v (u :: us))
    (hu : s.thread_slots u ≠ v) : Moves s t (s.setPc t .operating)
  | check (v : ℕ) (u : T) (us : List T) (h : s.pc t = .checkSlots v (u :: us))
    (hu : s.thread_slots u = v) : Moves s t (s.setPc t (.checkSlots v us))
  | scanned (v : ℕ) (h : s.pc t = .checkSlots v []) : Moves s t (s.setPc t (.loadAt v))
  | load (v : ℕ) (h : s.pc t = .loadAt v) (hv : s.at_version (c.home t) < v) :
    Moves s t (s.setPc t (.exchangeAt v))
  | late (v : ℕ) (h : s.pc t = .loadAt v) (hv : ¬ s.at_version (c.home t) < v) :
    Moves s t (s.setPc t .operating)
  | pass (v : ℕ) (h : s.pc t = .exchangeAt v) (hv : s.at_version (c.home t) ≠ v) :
    Moves s t ({ s with at_version := Function.update s.at_version (c.home t) (toInt v) }.setPc t
      (.incCycles v))
  | lose (v : ℕ) (h : s.pc t = .exchangeAt v) (hv : s.at_version (c.home t) = v) :
    Moves s t ({ s with at_version := Function.update s.at_version (c.home t) (toInt v) }.setPc t
      .operating)
  | count (v : ℕ) (h : s.pc t = .incCycles v) :
    Moves s t ({ s with
      cycles := Function.update s.cycles (c.home t) (s.cycles (c.home t) + 1) }.setPc t (.writeNext v))
  | write (v : ℕ) (h : s.pc t = .writeNext v) (hn : c.next (c.home t) = c.home t) :
    Moves s t ({ s with my_version := Function.update s.my_version (c.home t) v }.setPc t .operating)
  | send (v : ℕ) (h : s.pc t = .writeNext v) (hn : c.next (c.home t) ≠ c.home t) :
    Moves s t ({ s with
      sent := Function.update s.sent (c.home t) (s.sent (c.home t) ++ [v]) }.setPc t .operating)

omit [DecidableEq Obj] in
lemma moves_of_matchStep {s s' : State c Obj} {t : T} (h : matchStep s t = some s') :
    Moves s t s' := by
  unfold matchStep at h
  cases hpc : s.pc t with
  | operating => simp [hpc] at h
  | readVersion =>
    simp only [hpc, Option.some.injEq] at h
    exact h ▸ .read hpc
  | storeSlot v =>
    simp only [hpc] at h
    split_ifs at h with hv
    · cases h
      exact .store v hpc hv
    · cases h
      exact .keep v hpc hv
  | checkSlots v left =>
    cases left with
    | nil =>
      simp only [hpc, Option.some.injEq] at h
      exact h ▸ .scanned v hpc
    | cons u us =>
      simp only [hpc, Option.some.injEq] at h
      split_ifs at h with hu
      · exact h ▸ .lag v u us hpc hu
      · exact h ▸ .check v u us hpc (not_not.mp hu)
  | loadAt v =>
    simp only [hpc, Option.some.injEq] at h
    split_ifs at h with hv
    · exact h ▸ .load v hpc hv
    · exact h ▸ .late v hpc hv
  | exchangeAt v =>
    simp only [hpc, Option.some.injEq] at h
    split_ifs at h with hv
    · exact h ▸ .pass v hpc hv
    · exact h ▸ .lose v hpc (not_not.mp hv)
  | incCycles v =>
    simp only [hpc, Option.some.injEq] at h
    exact h ▸ .count v hpc
  | writeNext v =>
    simp only [hpc] at h
    split_ifs at h with hn
    · cases h
      exact .write v hpc hn
    · cases h
      exact .send v hpc hn

/-- The outcomes of a step. Only `match_version` and the delivery of a write touch what the threads
share. -/
inductive Steps (s : State c Obj) : Act c Obj → State c Obj → Prop
  | lists (a : Act c Obj) (ha : ∀ t, a ≠ .next t) (limbo : T → LimboLists Obj) (counter : T → ℕ) :
    Steps s a { s with limbo := limbo, counter := counter }
  | enter (t : T) (override_epoch : Bool) (counter : T → ℕ) (h : s.pc t = .operating) :
    Steps s (.matchVersion t override_epoch) ({ s with counter := counter }.setPc t .readVersion)
  | moves (t : T) (s' : State c Obj) (h : Moves s t s') : Steps s (.next t) s'
  | deliver (n : Fin c.nodes) (i v : ℕ) (h : (s.sent n)[i]? = some v) :
    Steps s (.deliver n i) { s with
      my_version := Function.update s.my_version (c.next n) v
      sent := Function.update s.sent n ((s.sent n).eraseIdx i) }

lemma steps_of_step {s s' : State c Obj} {a : Act c Obj} (h : step s a = some s') :
    Steps s a s' := by
  cases a with
  | deallocate t x | requeue t x =>
    simp only [step] at h
    split at h <;> cases h
    exact .lists _ (fun _ => by simp) _ _
  | allocate t x =>
    simp only [step] at h
    split at h <;> cases h
    · exact .lists (.allocate t x) (fun _ => by simp) s.limbo s.counter
    · exact .lists (.allocate t x) (fun _ => by simp) _ s.counter
  | matchVersion t o =>
    simp only [step] at h
    split at h
    · rename_i hpc
      split_ifs at h <;> cases h
      · exact .lists (.matchVersion t o) (fun _ => by simp) s.limbo _
      · exact .enter t o _ hpc
    · cases h
  | next t => exact .moves t s' (moves_of_matchStep h)
  | deliver n i =>
    simp only [step] at h
    split at h
    · cases h
    · rename_i v hv
      cases h
      exact .deliver n i v hv

end ObjectCache.Ebr
