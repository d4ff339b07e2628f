import Mathlib.Logic.Function.Basic
import Mathlib.Tactic.Common

/-! The finite map that a table of keys and values stands for, and the answers it gives to calls
made one after another. -/

namespace ObjectCache.Lib

inductive MapOp (K V : Type*) where
  | insert (k : K) (v : V)
  | remove (k : K)
  | contains (k : K)
  deriving DecidableEq

namespace MapOp

variable {K V : Type*}

def key : MapOp K V → K
  | .insert k _ | .remove k | .contains k => k

/-- What a call leaves in the map; a stored value is not overwritten. Each of the three calls
answers with what the map held at its key. -/
def apply [DecidableEq K] (m : K → Option V) : MapOp K V → K → Option V
  | .insert k v => if (m k).isNone then Function.update m k (some v) else m
  | .remove k => Function.update m k none
  | .contains _ => m

end MapOp

section Calls

variable {σ K V : Type*}

/-- Calls made one after another, with what each returned. -/
inductive Calls (call : σ → MapOp K V → Option V → σ → Prop) :
    σ → List (MapOp K V × Option V) → σ → Prop
  | nil {s} : Calls call s [] s
  | cons {s s' s'' op ret l} : call s op ret s' → Calls call s' l s'' →
      Calls call s ((op, ret) :: l) s''

variable [DecidableEq K]

/-- Every call of the list returned what the map answers. -/
def Answers (m : K → Option V) : List (MapOp K V × Option V) → Prop
  | [] => True
  | (op, ret) :: l => ret = m op.key ∧ Answers (op.apply m) l

/-- The map after the calls of a list. -/
def after (m : K → Option V) : List (MapOp K V × Option V) → K → Option V
  | [] => m
  | (op, _) :: l => after (op.apply m) l

lemma after_concat {m : K → Option V} {l : List (MapOp K V × Option V)} {op : MapOp K V}
    {ret : Option V} : after m (l ++ [(op, ret)]) = op.apply (after m l) := by
  induction l generalizing m with
  | nil => rfl
  | cons y l ih => exact ih

lemma answers_concat {m : K → Option V} {l : List (MapOp K V × Option V)} {op : MapOp K V}
    {ret : Option V} :
    Answers m (l ++ [(op, ret)]) ↔ Answers m l ∧ ret = after m l op.key := by
  induction l generalizing m with
  | nil => simp [Answers, after]
  | cons y l ih =>
    simp only [List.cons_append, Answers, after]
    rw [ih, and_assoc]

theorem Calls.answers {call : σ → MapOp K V → Option V → σ → Prop} {R : σ → (K → Option V) → Prop}
    (hcall : ∀ s m op ret s', R s m → call s op ret s' → ret = m op.key ∧ R s' (op.apply m))
    {s s' : σ} {l : List (MapOp K V × Option V)} (h : Calls call s l s') :
    ∀ m, R s m → Answers m l ∧ ∃ m', R s' m' := by
  induction h with
  | nil => exact fun m hm => ⟨trivial, m, hm⟩
  | cons hc _ ih =>
    intro m hm
    obtain ⟨hret, hnext⟩ := hcall _ _ _ _ _ hm hc
    obtain ⟨hrest, hlast⟩ := ih _ hnext
    exact ⟨⟨hret, hrest⟩, hlast⟩

end Calls

end ObjectCache.Lib
