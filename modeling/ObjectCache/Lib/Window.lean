import ObjectCache.Lib.Transition

/-! The stretch of a run since the last action of a kind, and the moments in it. -/

namespace ObjectCache.Lib.Machine.Run

variable {σ α : Type*} {M : Machine σ α} (r : M.Run) (opens : α → Prop) [DecidablePred opens]

/-- The position after the last action before `i` that opens a stretch. -/
def since : ℕ → ℕ
  | 0 => 0
  | i + 1 => if opens (r.act i) then i + 1 else since i

/-- At some moment of the stretch. -/
def During (i : ℕ) (p : ℕ → Prop) : Prop := ∃ k, r.since opens i ≤ k ∧ k ≤ i ∧ p k

/-- At some step of the stretch. -/
def Did (i : ℕ) (p : ℕ → Prop) : Prop := ∃ k, r.since opens i ≤ k ∧ k < i ∧ p k

/-- At no more than one step of the stretch. -/
def Once (i : ℕ) (p : ℕ → Prop) : Prop :=
  ∀ j k, r.since opens i ≤ j → j < i → r.since opens i ≤ k → k < i → p j → p k → j = k

variable {r opens} {i : ℕ} {p q : ℕ → Prop}

lemma since_succ (h : ¬ opens (r.act i)) : r.since opens (i + 1) = r.since opens i := if_neg h

lemma since_opens (h : opens (r.act i)) : r.since opens (i + 1) = i + 1 := if_pos h

lemma since_le : r.since opens i ≤ i := by
  induction i with
  | zero => exact Nat.le_refl 0
  | succ i ih =>
    by_cases h : opens (r.act i)
    · exact Nat.le_of_eq (since_opens h)
    · rw [since_succ h]
      exact Nat.le_succ_of_le ih

/-- The stretch depends on the actions before. -/
lemma since_congr {r' : M.Run} (ha : ∀ k < i, r'.act k = r.act k) : r'.since opens i = r.since opens i := by
  induction i with
  | zero => rfl
  | succ i ih =>
    rw [since, since, ha i (Nat.lt_succ_self i), ih fun k hk => ha k (by omega)]

lemma during_congr {r' : M.Run} (ha : ∀ k < i, r'.act k = r.act k) (hp : ∀ k ≤ i, q k ↔ p k) :
    r'.During opens i q ↔ r.During opens i p := by
  simp only [During, since_congr ha]
  exact exists_congr fun k => and_congr_right fun _ => and_congr_right fun hk => hp k hk

lemma did_congr {r' : M.Run} (ha : ∀ k < i, r'.act k = r.act k) (hp : ∀ k < i, q k ↔ p k) :
    r'.Did opens i q ↔ r.Did opens i p := by
  simp only [Did, since_congr ha]
  exact exists_congr fun k => and_congr_right fun _ => and_congr_right fun hk => hp k hk

lemma During.now (h : p i) : r.During opens i p := ⟨i, since_le, Nat.le_refl i, h⟩

lemma During.mono (h : r.During opens i p) (hq : ∀ k ≤ i, p k → q k) : r.During opens i q := by
  obtain ⟨k, hk, hki, hp⟩ := h
  exact ⟨k, hk, hki, hq k hki hp⟩

lemma During.succ (h : r.During opens i p) (ho : ¬ opens (r.act i)) : r.During opens (i + 1) p := by
  obtain ⟨k, hk, hki, hp⟩ := h
  exact ⟨k, by rwa [since_succ ho], by omega, hp⟩

lemma Did.step (h : p i) (ho : ¬ opens (r.act i)) : r.Did opens (i + 1) p :=
  ⟨i, by rw [since_succ ho]; exact since_le, by omega, h⟩

lemma Did.mono (h : r.Did opens i p) (hq : ∀ k < i, p k → q k) : r.Did opens i q := by
  obtain ⟨k, hk, hki, hp⟩ := h
  exact ⟨k, hk, hki, hq k hki hp⟩

lemma Did.succ (h : r.Did opens i p) (ho : ¬ opens (r.act i)) : r.Did opens (i + 1) p := by
  obtain ⟨k, hk, hki, hp⟩ := h
  exact ⟨k, by rwa [since_succ ho], by omega, hp⟩

lemma did_succ_iff (ho : ¬ opens (r.act i)) :
    r.Did opens (i + 1) p ↔ r.Did opens i p ∨ p i := by
  constructor
  · rintro ⟨k, hk, hki, hp⟩
    rw [since_succ ho] at hk
    rcases Nat.lt_succ_iff_lt_or_eq.mp hki with hlt | rfl
    · exact .inl ⟨k, hk, hlt, hp⟩
    · exact .inr hp
  · rintro (h | h)
    · exact h.succ ho
    · exact .step h ho

lemma Once.first (h : ¬ r.Did opens i p) (ho : ¬ opens (r.act i)) : r.Once opens (i + 1) p := by
  have hlast : ∀ k, r.since opens (i + 1) ≤ k → k < i + 1 → p k → k = i := by
    intro k hk hki hp
    rw [since_succ ho] at hk
    by_contra hne
    exact h ⟨k, hk, by omega, hp⟩
  intro j k hj hji hk hki hp hq
  rw [hlast j hj hji hp, hlast k hk hki hq]

lemma Once.succ (h : r.Once opens i p) (ho : ¬ opens (r.act i)) (hn : ¬ p i) :
    r.Once opens (i + 1) p := by
  have hlt : ∀ k, k < i + 1 → p k → k < i := by
    intro k hki hp
    refine Nat.lt_of_le_of_ne (by omega) ?_
    rintro rfl
    exact hn hp
  intro j k hj hji hk hki hp hq
  rw [since_succ ho] at hj hk
  exact h j k hj (hlt j hji hp) hk (hlt k hki hq) hp hq

lemma not_did_opens (ho : opens (r.act i)) : ¬ r.Did opens (i + 1) p := by
  rintro ⟨k, hk, hki, -⟩
  rw [since_opens ho] at hk
  omega

end ObjectCache.Lib.Machine.Run
