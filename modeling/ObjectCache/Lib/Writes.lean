import Mathlib.Tactic.Common

/-! Sequences of writes, each of which may fault: of the values set at a place the last one stays. -/

namespace ObjectCache.Lib

variable {σ ω ι α ρ : Type*} {step : σ → ω → Option σ} {ws : List ω} {w : ω} {s : σ}

/-- One write after the other. -/
def runAll (step : σ → ω → Option σ) : List ω → σ → Option σ
  | [], s => some s
  | w :: ws, s => (step s w).bind (runAll step ws)

/-- The last value that is set. -/
def lastSet (sets : ω → Option α) (ws : List ω) : Option α := ws.reverse.findSome? sets

lemma lastSet_cons {sets : ω → Option α} : lastSet sets (w :: ws) = (lastSet sets ws).or (sets w) := by
  rw [lastSet, List.reverse_cons, List.findSome?_append, lastSet]
  simp

/-- What every write does to a place and to the rest, all of them do. -/
lemma exists_runAll {read : ι → σ → α} {sets : ι → ω → Option α} {rest : σ → ρ} {p : ι → Prop}
    (h : ∀ w ∈ ws, ∀ s, ∃ s', step s w = some s' ∧ (∀ i, p i → read i s' = (sets i w).getD (read i s)) ∧
      rest s' = rest s) :
    ∃ s', runAll step ws s = some s' ∧ (∀ i, p i → read i s' = (lastSet (sets i) ws).getD (read i s)) ∧
      rest s' = rest s := by
  induction ws generalizing s with
  | nil => exact ⟨s, rfl, fun _ _ => rfl, rfl⟩
  | cons w ws ih =>
    obtain ⟨s', hs', hread, hrest⟩ := h w List.mem_cons_self s
    obtain ⟨s'', hs'', hread', hrest'⟩ := ih fun w hw => h w (List.mem_cons_of_mem _ hw)
    refine ⟨s'', ?_, fun i hi => ?_, hrest'.trans hrest⟩
    · rw [runAll, hs']
      exact hs''
    · rw [hread' i hi, hread i hi, lastSet_cons]
      cases lastSet (sets i) ws <;> rfl

end ObjectCache.Lib
