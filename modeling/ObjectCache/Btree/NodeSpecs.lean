import ObjectCache.Btree.Nodes

/-! What the routines on nodes return when the keys of the nodes are in order. -/

namespace ObjectCache.Btree.Tree

open Lib

variable {α A V : Type} {d n i j bound index : ℕ} {keys : Slots ℤ} {key : ℤ} {s : Slots α} {x : α}
  {f : Fault → Prop}

lemma load_ok (hi : i < bound) : load bound s i = .ok (s i) := by
  rw [load, if_pos ⟨by omega, by omega⟩]
  simp

lemma store_ok (hi : i < bound) : store bound s i x = .ok (Function.update s i x) := by
  rw [store, if_pos ⟨by omega, by omega⟩]
  simp

lemma load_returns (hi : i < bound) : Returns (load bound s i) fun y => y = s i := by
  rw [load_ok hi]
  rfl

lemma store_returns (hi : i < bound) :
    Returns (store bound s i x) fun r => r = Function.update s i x := by
  rw [store_ok hi]
  rfl

lemma pos_size : 0 < SIZE d := Nat.succ_pos _

/-- The first `n` slots hold keys in order, the others are free. -/
structure Ordered (d : ℕ) (keys : Slots ℤ) (n : ℕ) : Prop where
  count : n ≤ SIZE d
  lt : ∀ i j, i < j → j < n → keys i < keys j
  valid : ∀ i < n, keys i < SENTINEL
  free : ∀ i, n ≤ i → i < SIZE d → keys i = SENTINEL

/-- Where a key goes among the first `n`. -/
structure Route (keys : Slots ℤ) (n : ℕ) (key : ℤ) (i : ℕ) : Prop where
  le : i ≤ n
  before : ∀ j < i, keys j < key
  behind : i < n → key ≤ keys i

lemma Route.unique {i' : ℕ} (h : Route keys n key i) (h' : Route keys n key i') : i = i' := by
  rcases Nat.lt_trichotomy i i' with hlt | heq | hlt
  · have h₁ := h'.before i hlt
    have h₂ := h.behind (Nat.lt_of_lt_of_le hlt h'.le)
    omega
  · exact heq
  · have h₁ := h.before i' hlt
    have h₂ := h'.behind (Nat.lt_of_lt_of_le hlt h.le)
    omega

/-! ### Search -/

lemma searchLoop_returns (h : Ordered d keys n) (hk : key < SENTINEL) {rounds low high : ℕ}
    (hle : low ≤ high) (hhigh : high < SIZE d) (hbefore : ∀ j < low, keys j < key)
    (hbehind : key ≤ keys high) (hrounds : high - low < rounds) :
    Returns (searchLoop d keys key rounds low high) fun b =>
      ∃ i : ℕ, b = i ∧ i < SIZE d ∧ (∀ j < i, keys j < key) ∧ key ≤ keys i := by
  induction rounds generalizing low high with
  | zero => omega
  | succ rounds ih =>
    rw [searchLoop]
    by_cases heq : low = high
    · subst heq
      rw [if_pos rfl]
      exact ⟨low, rfl, hhigh, hbefore, hbehind⟩
    · rw [if_neg heq]
      have hmid : (low + high) / 2 < high := by omega
      have hlow : low ≤ (low + high) / 2 := by omega
      show Returns (keyAt d keys ((low + high) / 2 : ℕ) >>= _) _
      rw [keyAt, load_ok (by omega)]
      show Returns (if key = keys ((low + high) / 2) then _ else _) _
      generalize hm : (low + high) / 2 = mid at *
      have hlt : ∀ j < mid, keys j < keys mid ∨ keys mid = SENTINEL := by
        intro j hj
        by_cases hn : mid < n
        · exact .inl (h.lt j mid hj hn)
        · exact .inr (h.free mid (by omega) (by omega))
      split_ifs with h₁ h₂
      · refine ⟨mid, rfl, by omega, fun j hj => ?_, by omega⟩
        rcases hlt j hj with hj' | hj' <;> omega
      · exact ih (by omega) (by omega) hbefore (by omega) (by omega)
      · refine ih (by omega) hhigh (fun j hj => ?_) hbehind (by omega)
        rcases Nat.lt_or_eq_of_le (Nat.le_of_lt_succ hj) with hj' | rfl
        · rcases hlt j hj' with hj'' | hj'' <;> omega
        · omega

/-- The slot a search returns; behind all slots it is -1. -/
def Found (d : ℕ) (i : ℕ) (bucket : ℤ) : Prop := i < SIZE d ∧ bucket = i ∨ i = SIZE d ∧ bucket = -1

lemma searchNode_returns (h : Ordered d keys n) (hk : key < SENTINEL) :
    Returns (searchNode d keys key) fun b => ∃ i, Route keys n key i ∧ Found d i b := by
  have hsize := pos_size (d := d)
  rw [searchNode, keyAt, load_ok (by omega)]
  show Returns (if keys (SIZE d - 1) < key then _ else _) _
  split_ifs with hlast
  · have hn : n = SIZE d := by
      by_contra hne
      have hcount := h.count
      rw [h.free (SIZE d - 1) (by omega) (by omega)] at hlast
      omega
    refine ⟨SIZE d, ⟨by omega, fun j hj => ?_, by omega⟩, .inr ⟨rfl, rfl⟩⟩
    by_cases hj' : j = SIZE d - 1
    · rw [hj']
      exact hlast
    · exact Int.lt_trans (h.lt j (SIZE d - 1) (by omega) (by omega)) hlast
  · refine (searchLoop_returns h hk (Nat.zero_le _) (by omega) (by omega) (by omega) (by omega)).mono ?_
    rintro b ⟨i, rfl, hi, hbefore, hbehind⟩
    refine ⟨i, ⟨?_, hbefore, fun _ => hbehind⟩, .inl ⟨hi, rfl⟩⟩
    by_contra hin
    have hn := hbefore n (by omega)
    rw [h.free n (by omega) (by omega)] at hn
    omega

/-- `for (i = 0; i < SIZE; i++) if (key <= key_at(i)) return i;`, and -1 behind all slots. -/
def searchReference (d : ℕ) (keys : Slots ℤ) (key : ℤ) : ℤ :=
  match (List.range (SIZE d)).find? fun i => key ≤ keys i with
  | some i => i
  | none => -1

lemma find_first (hi : i < SIZE d) (hbefore : ∀ j < i, keys j < key) (hk : key ≤ keys i) :
    (List.range (SIZE d)).find? (fun i => key ≤ keys i) = some i := by
  rw [List.find?_range_eq_some]
  refine ⟨decide_eq_true hk, List.mem_range.mpr hi, fun j hj => ?_⟩
  simpa using hbefore j hj

lemma find_none (h : ∀ j < SIZE d, keys j < key) :
    (List.range (SIZE d)).find? (fun i => key ≤ keys i) = none := by
  rw [List.find?_eq_none]
  intro j hj
  simpa using h j (List.mem_range.mp hj)

lemma Ordered.behind (h : Ordered d keys n) (hk : key < SENTINEL) (hroute : Route keys n key i)
    (hi : i < SIZE d) : key ≤ keys i := by
  by_cases hin : i < n
  · exact hroute.behind hin
  · rw [h.free i (by omega) hi]
    omega

/-- The binary search ends and returns what the linear search returns. -/
theorem searchNode_eq_reference (h : Ordered d keys n) (hk : key < SENTINEL) :
    searchNode d keys key = .ok (searchReference d keys key) := by
  obtain ⟨b, hb, i, hroute, hfound⟩ := returns_iff.mp (searchNode_returns h hk)
  rw [hb, searchReference]
  rcases hfound with ⟨hi, rfl⟩ | ⟨rfl, rfl⟩
  · rw [find_first hi hroute.before (h.behind hk hroute hi)]
  · rw [find_none hroute.before]

theorem searchNode_two : searchNode 1 (fun i => if i = 0 then 10 else if i = 1 then 20 else SENTINEL) 15 =
    .ok (searchReference 1 (fun i => if i = 0 then 10 else if i = 1 then 20 else SENTINEL) 15) := by
  refine searchNode_eq_reference (n := 2) ⟨by decide, ?_, by decide, ?_⟩ (by decide)
  · intro i j hij hj
    obtain ⟨rfl, rfl⟩ : i = 0 ∧ j = 1 := by omega
    decide
  · intro i hi _
    rw [if_neg (by omega), if_neg (by omega)]

/-! ### Loops -/

/-- The slots that stay, and those that move into an empty array. -/
def lowHalf (d moved : ℕ) (free : α) (full : Slots α) : Slots α := fun i =>
  if d < i ∧ i ≤ d + moved then free else full i

def highHalf (d bound moved : ℕ) (free : α) (full empty : Slots α) : Slots α := fun i =>
  if i < moved then full (d + i + 1) else if i < bound then free else empty i

lemma moveHalf_returns {moved : ℕ} {free : α} {full empty : Slots α}
    (hbound : d + moved + 1 ≤ bound) :
    Returns (moveHalf d bound moved free full empty) fun r =>
      r = (lowHalf d moved free full, highHalf d bound moved free full empty) := by
  let I : ℕ → Slots α × Slots α → Prop := fun i r =>
    r.1 = lowHalf d (min i moved) free full ∧ r.2 = highHalf d i (min i moved) free full empty
  have hloop : Returns (moveHalf d bound moved free full empty) (I (0 + bound)) := by
    refine loopUp_ends (I := I) ⟨?_, ?_⟩ ?_
    · funext j
      simp only [lowHalf]
      grind
    · funext j
      simp only [highHalf]
      grind
    · rintro i ⟨low, high⟩ - hi ⟨rfl, rfl⟩
      rw [Nat.zero_add] at hi
      dsimp only
      split_ifs with him
      · rw [load_ok (by omega), Nat.min_eq_left (by omega)]
        show Returns (store bound (highHalf d i i free full empty) i _ >>= _) _
        rw [store_ok hi]
        show Returns (store bound (lowHalf d i free full) (d + i + 1 : ℕ) free >>= _) _
        rw [store_ok (by omega)]
        refine ⟨?_, ?_⟩
        · funext j
          simp only [lowHalf, Function.update_apply, Nat.min_eq_left (show i + 1 ≤ moved by omega)]
          grind
        · funext j
          simp only [lowHalf, highHalf, Function.update_apply,
            Nat.min_eq_left (show i + 1 ≤ moved by omega)]
          grind
      · show Returns (store bound (highHalf d i (min i moved) free full empty) i free >>= _) _
        rw [store_ok hi]
        refine ⟨?_, ?_⟩
        · funext j
          simp only [lowHalf]
          grind
        · funext j
          simp only [highHalf, Function.update_apply]
          grind
  refine hloop.mono ?_
  rintro ⟨low, high⟩ ⟨rfl, rfl⟩
  rw [Nat.zero_add, Nat.min_eq_right (by omega)]

/-- Every slot behind `index` takes what is before it. -/
def raised (bound index : ℕ) (s : Slots α) : Slots α := fun i =>
  if index < i ∧ i < bound then s (i - 1) else s i

lemma raise_returns : Returns (raise bound index s) fun r => r = raised bound index s := by
  rw [raise, show ((index : ℤ) + 1).toNat = index + 1 by omega]
  let I : ℕ → Slots α → Prop := fun i r => r = fun j => if i ≤ j ∧ j < bound then s (j - 1) else s j
  refine Ends.mono (loopDown_ends (I := I) ?_ ?_) ?_
  · funext j
    grind
  · rintro i r hi hlt rfl
    rw [show (i : ℤ) - 1 = ((i - 1 : ℕ) : ℤ) by omega, load_ok (by omega)]
    show Returns (store bound _ i _) _
    rw [store_ok (by omega)]
    funext j
    simp only [Function.update_apply]
    grind
  · rintro r rfl
    funext j
    simp only [raised]
    grind

/-- Every slot from `index` on takes what is behind it. -/
def lowered (bound index : ℕ) (s : Slots α) : Slots α := fun i =>
  if index ≤ i ∧ i + 1 < bound then s (i + 1) else s i

lemma lower_returns : Returns (lower bound index s) fun r => r = lowered bound index s := by
  let I : ℕ → Slots α → Prop := fun i r =>
    r = fun j => if index ≤ j ∧ j < i ∧ j + 1 < bound then s (j + 1) else s j
  have hloop : Returns (lower bound index s) (I (index + (bound - 1 - index))) := by
    refine loopUp_ends (I := I) ?_ ?_
    · funext j
      grind
    · rintro i r hi hlt rfl
      rw [show (i : ℤ) + 1 = ((i + 1 : ℕ) : ℤ) by omega, load_ok (by omega)]
      show Returns (store bound _ i _) _
      rw [store_ok (by omega)]
      funext j
      simp only [Function.update_apply]
      grind
  refine hloop.mono ?_
  rintro r rfl
  funext j
  simp only [lowered]
  grind

lemma splitKeys_returns {full empty : Slots ℤ} {no_persist : Bool} :
    Returns (splitKeys d full empty no_persist) fun r =>
      r = (full d, (fun i => if (if no_persist then d else d + 1) ≤ i ∧ i < SIZE d then SENTINEL else full i),
        highHalf d (SIZE d) d SENTINEL full empty) := by
  have hsize : SIZE d = d * 2 + 1 := rfl
  rw [splitKeys]
  refine Ends.bind (load_returns (by omega)) ?_
  rintro _ rfl
  refine Ends.bind (moveHalf_returns (by omega)) ?_
  rintro _ rfl
  dsimp only
  split_ifs with hp
  · refine Ends.bind (store_returns (by omega)) ?_
    rintro _ rfl
    refine Prod.ext rfl (Prod.ext ?_ rfl)
    funext i
    simp only [lowHalf, Function.update_apply]
    grind
  · refine Prod.ext rfl (Prod.ext ?_ rfl)
    funext i
    simp only [lowHalf]
    grind

lemma firstFree_returns (h : Ordered d keys n) (hn : n < SIZE d) {rounds start : ℕ}
    (hs : start ≤ n) (hr : n - start < rounds) :
    Returns (firstFree d keys rounds start) fun r => r = n := by
  induction rounds generalizing start with
  | zero => omega
  | succ rounds ih =>
    rw [firstFree]
    refine Ends.bind (load_returns (by omega)) ?_
    rintro _ rfl
    split_ifs with hfree
    · show start = n
      by_contra hne
      have := h.valid start (by omega)
      omega
    · have hne : start ≠ n := by
        rintro rfl
        exact hfree (h.free _ (Nat.le_refl _) hn)
      exact ih (by omega) (by omega)

end ObjectCache.Btree.Tree
