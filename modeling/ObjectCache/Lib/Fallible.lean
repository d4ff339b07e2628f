import Mathlib.Tactic.Common

/-! Computations that may stop with a fault: how they end, and the rules for their loops. -/

namespace ObjectCache.Lib

universe u v

variable {ε : Type v} {α β σ : Type u} {e : Except ε α} {k : α → Except ε β} {f : ε → Prop} {p q : α → Prop}
  {r : β → Prop}

/-- The computation returns such a result or stops with such a fault. -/
def Ends (e : Except ε α) (f : ε → Prop) (p : α → Prop) : Prop :=
  match e with
  | .ok a => p a
  | .error x => f x

/-- The computation returns such a result. -/
abbrev Returns (e : Except ε α) (p : α → Prop) : Prop := Ends e (fun _ => False) p

lemma Ends.bind (h : Ends e f p) (hk : ∀ a, p a → Ends (k a) f r) : Ends (e >>= k) f r := by
  cases e with
  | ok a => exact hk a h
  | error x => exact h

lemma Ends.mono (h : Ends e f p) (hp : ∀ a, p a → q a) : Ends e f q := by
  cases e with
  | ok a => exact hp a h
  | error x => exact h

lemma Ends.fault {g : ε → Prop} (h : Ends e f p) (hg : ∀ x, f x → g x) : Ends e g p := by
  cases e with
  | ok a => exact h
  | error x => exact hg x h

lemma Ends.and {g : ε → Prop} (h : Ends e f p) (h' : Ends e g q) : Ends e f fun a => p a ∧ q a := by
  cases e with
  | ok a => exact ⟨h, h'⟩
  | error x => exact h

lemma Returns.ends (h : Returns e p) : Ends e f p := by
  cases e with
  | ok a => exact h
  | error x => exact h.elim

lemma returns_iff : Returns e p ↔ ∃ a, e = .ok a ∧ p a := by
  cases e with
  | ok a =>
    refine ⟨fun h => ⟨a, rfl, h⟩, ?_⟩
    rintro ⟨b, hb, h⟩
    cases hb
    exact h
  | error x =>
    refine ⟨fun h => h.elim, ?_⟩
    rintro ⟨b, hb, h⟩
    cases hb

/-- `rounds` rounds, for `i` from `lo` on. -/
def loopUp (body : ℕ → σ → Except ε σ) : ℕ → ℕ → σ → Except ε σ
  | 0, _, s => .ok s
  | rounds + 1, lo, s => body lo s >>= loopUp body rounds (lo + 1)

/-- `rounds` rounds, for `i` down to `lo`. -/
def loopDown (body : ℕ → σ → Except ε σ) (lo : ℕ) : ℕ → σ → Except ε σ
  | 0, s => .ok s
  | rounds + 1, s => body (lo + rounds) s >>= loopDown body lo rounds

section Loops

variable {body : ℕ → σ → Except ε σ} {lo rounds : ℕ} {s : σ} {I : ℕ → σ → Prop}

lemma loopUp_ends (hs : I lo s)
    (hb : ∀ i s, lo ≤ i → i < lo + rounds → I i s → Ends (body i s) f (I (i + 1))) :
    Ends (loopUp body rounds lo s) f (I (lo + rounds)) := by
  induction rounds generalizing lo s with
  | zero => exact hs
  | succ rounds ih =>
    have hfirst := hb lo s (Nat.le_refl lo) (by omega) hs
    refine Ends.bind hfirst fun s' hs' => ?_
    have hrest := ih hs' fun i s hi hlt => hb i s (by omega) (by omega)
    rwa [Nat.add_right_comm] at hrest

lemma loopDown_ends (hs : I (lo + rounds) s)
    (hb : ∀ i s, lo ≤ i → i < lo + rounds → I (i + 1) s → Ends (body i s) f (I i)) :
    Ends (loopDown body lo rounds s) f (I lo) := by
  induction rounds generalizing s with
  | zero => exact hs
  | succ rounds ih =>
    have hfirst := hb (lo + rounds) s (by omega) (by omega) hs
    refine Ends.bind hfirst fun s' hs' => ?_
    exact ih hs' fun i s hi hlt => hb i s hi (by omega)

end Loops

end ObjectCache.Lib
