import ObjectCache.LockFree.Get

/-! What a `get` finds in a list without marks, as long as nothing else happens. -/

set_option linter.unusedSectionVars false

namespace ObjectCache.LockFree.Get

open Lib StateTransition

variable {A V T : Type} [DecidableEq A] [DecidableEq T] {c : Config A} {linked : Set A} {m : Memory A V} {key : ℤ}
  {n curr : A} {s s' : State A V T} {t : T}

/-- The first node behind the key. -/
structure Lands (c : Config A) (linked : Set A) (m : Memory A V) (key : ℤ) (curr : A) : Prop where
  pred : ∃ pred, Stands c linked m key 0 pred ∧ m.bottom pred = some curr
  behind : (m.node curr).is_less_than_key key = false

lemma Lands.mem (h : Lands c linked m key curr) (hl : Links c linked m) : curr ∈ linked := by
  obtain ⟨⟨pred, hs, hcurr⟩, -⟩ := h
  exact (hl.target hs.linked hcurr).linked

lemma is_equal_key_iff {x : Node V} : x.is_equal_key key = true ↔ x.key_low ≤ key ∧ key < x.key_high := by
  simp [Node.is_equal_key]

/-- Where the range of a node agrees with the key, it is the one behind the key. -/
lemma Lands.eq (h : Lands c linked m key curr) (hl : Links c linked m)
    (hreach : ∀ n ∈ linked, Live c m n) (hn : n ∈ linked) (heq : (m.node n).is_equal_key key = true) :
    curr = n := by
  have hcurrL := h.mem hl
  obtain ⟨⟨pred, hs, hcurr⟩, hbehind⟩ := h
  obtain ⟨hlow, hhigh⟩ := is_equal_key_iff.mp heq
  have hless : key < (m.node curr).key_high := by
    simpa [Node.is_less_than_key] using hbehind
  by_contra hne
  rcases hl.disjoint (hreach curr hcurrL).reach (hreach n hn).reach hne with ⟨-, hle⟩ | ⟨-, hle⟩
  · exact absurd (hle.trans hlow) (not_le.mpr hless)
  · have hclear := hl.clear (hreach pred hs.linked).reach hcurr hs.high le_rfl n (hreach n hn)
    have hover : (m.node n).is_equal key (m.node curr).key_low = true := by
      rw [is_equal_iff]
      exact ⟨lt_of_le_of_lt hlow (lt_of_lt_of_le hhigh hle), hhigh⟩
    rw [hover] at hclear
    cases hclear

/-- Where a search with a place for the accesses stands in such a list. -/
def Pc.Near (c : Config A) (linked : Set A) (m : Memory A V) (key : ℤ) : Pc A V → Prop
  | .idle => False
  | .load k counts level pred => k = key ∧ counts = true ∧ Stands c linked m key level pred
  | .next k counts level pred curr => k = key ∧ counts = true ∧ Stands c linked m key level pred ∧
    (m.next pred level).node = some curr
  | .count curr => Lands c linked m key curr ∧ (m.node curr).is_equal_key key = true
  | .done result accesses => ∃ curr, Lands c linked m key curr ∧
    if (m.node curr).is_equal_key key then result = (m.node curr).value ∧ accesses = some 0
    else result = none

lemma Pc.Near.advance {pc pc' : Pc A V} (h : pc.Near c linked m key) (hl : Links c linked m)
    (ha : Get.advance m pc = some pc') : pc'.Near c linked m key := by
  have hcases := advance_cases ha
  cases hcases with
  | load hcurr =>
    obtain ⟨hkey, hcounts, hs⟩ := h
    exact ⟨hkey, hcounts, hs, hcurr⟩
  | again =>
    obtain ⟨hkey, hcounts, hs, -⟩ := h
    exact ⟨hkey, hcounts, hs⟩
  | right hm hless hsucc =>
    obtain ⟨rfl, hcounts, hs, hcurr⟩ := h
    exact ⟨rfl, hcounts, hs.right (hl.target hs.linked hcurr) hless, hsucc⟩
  | down =>
    obtain ⟨hkey, hcounts, hs, -⟩ := h
    exact ⟨hkey, hcounts, hs.down⟩
  | @last k counts pred curr _ hm hless =>
    obtain ⟨rfl, rfl, hs, hcurr⟩ := h
    have hlands : Lands c linked m k curr := ⟨⟨pred, hs, hcurr⟩, hless⟩
    cases heq : (m.node curr).is_equal_key k with
    | true =>
      obtain rfl : Pc.count curr = pc' := by
        simpa [Get.advance, hm, hless, heq] using ha
      exact ⟨hlands, heq⟩
    | false =>
      obtain rfl : Pc.done none none = pc' := by
        simpa [Get.advance, hm, hless, heq, Node.result] using ha
      refine ⟨curr, hlands, ?_⟩
      rw [if_neg (by simp [heq])]

/-- A search under way, before which nothing has been counted. -/
structure Looking (c : Config A) (linked : Set A) (s : State A V T) (t : T) (key : ℤ) : Prop where
  near : (s.get t).Near c linked s.list.memory key
  accesses : (s.get t).isDone = false → ∀ n, s.accesses n = 0

lemma Looking.step (h : Looking c linked s t key) (hl : Links c linked s.list.memory)
    (hs : Get.step c s (.next t) = some s') : s'.list = s.list ∧ Looking c linked s' t key := by
  cases hpc : s.get t with
  | count curr =>
    have hnear := h.near
    have hzero := h.accesses (by rw [hpc]; rfl) curr
    rw [hpc] at hnear
    simp only [Get.step, hpc, Option.some.injEq] at hs
    subst hs
    refine ⟨rfl, ?_, ?_⟩
    · simp only [Function.update_self]
      refine ⟨curr, hnear.1, ?_⟩
      rw [if_pos hnear.2, hzero]
      exact ⟨rfl, rfl⟩
    · simp [Pc.isDone]
  | idle | done => simp [Get.step, hpc, Get.advance] at hs
  | load | next =>
    rcases step_next_cases hs with ⟨⟨curr, hcount⟩, -⟩ | ⟨pc, ha, rfl⟩
    · rw [hpc] at hcount
      cases hcount
    · refine ⟨rfl, ?_, fun _ => h.accesses (by rw [hpc]; rfl)⟩
      simp only [Function.update_self]
      exact h.near.advance hl ha

lemma Looking.exec {k : ℕ} (h : Looking c linked s t key) (hl : Links c linked s.list.memory)
    (hexec : (machine c).exec s (List.replicate k (.next t)) = some s') :
    s'.list = s.list ∧ Looking c linked s' t key := by
  induction k generalizing s with
  | zero =>
    cases hexec
    exact ⟨rfl, h⟩
  | succ k ih =>
    rw [List.replicate_succ] at hexec
    simp only [Machine.exec, Option.bind_eq_some_iff] at hexec
    obtain ⟨mid, hmid, hrest⟩ := hexec
    obtain ⟨hlist, hlook⟩ := h.step hl hmid
    obtain ⟨hlist', hlook'⟩ := ih hlook (hlist.symm ▸ hl) hrest
    exact ⟨hlist'.trans hlist, hlook'⟩

/-! ### The end of the search -/

lemma open_of_path {level level' : ℕ} {pred pred' : A} (hl : Links c linked m)
    (hunmarked : ∀ n level, (m.next n level).marked = false) (hkey : key < INT_MAX)
    (hs : Stands c linked m key level pred) (hp : Path m key level pred level' pred') :
    Open m level' pred' := by
  induction hp with
  | @here level pred =>
    have htail : pred ≠ c.tail := by
      rintro rfl
      have hhigh := hs.high
      rw [hl.tail_node] at hhigh
      exact absurd hkey (not_lt.mpr hhigh)
    obtain ⟨curr, hcurr⟩ := Option.ne_none_iff_exists'.mp (hl.whole hs.linked htail hs.top hs.max)
    exact ⟨curr, hcurr, hunmarked curr _⟩
  | right hcurr hm hless _ ih => exact ih (hs.right (hl.target hs.linked hcurr) hless)
  | down _ _ _ _ ih => exact ih hs.down

/-- The search comes to the node whose range agrees with the key. -/
theorem Looking.finds {counts : Bool} {level : ℕ} {pred : A} (h : Looking c linked s t key)
    (hrising : Rising c linked s.list.memory) (hreach : ∀ n ∈ linked, Live c s.list.memory n)
    (hunmarked : ∀ n level, (s.list.memory.next n level).marked = false) (hkey : key < INT_MAX)
    (hpc : s.get t = .load key counts level pred) (hn : n ∈ linked)
    (heq : (s.list.memory.node n).is_equal_key key = true) :
    ∃ k s', (machine c).exec s (List.replicate k (.next t)) = some s' ∧
      s'.get t = .done (s.list.memory.node n).value (some 0) := by
  have hnear := h.near
  rw [hpc] at hnear
  obtain ⟨-, -, hs⟩ := hnear
  have hends : Ends s.list.memory (.load key counts level pred) := hrising.ends_load hs fun level' pred' hp =>
    open_of_path hrising.toLinks hunmarked hkey hs hp
  obtain ⟨k, s', hexec, hdone⟩ := hends.finishes hpc
  obtain ⟨hlist, hlook⟩ := h.exec hrising.toLinks hexec
  refine ⟨k, s', hexec, ?_⟩
  have hend := hlook.near
  rw [hlist] at hend
  cases hget : s'.get t with
  | done result accesses =>
    rw [hget] at hend
    obtain ⟨curr, hlands, hresult⟩ := hend
    obtain rfl := hlands.eq hrising.toLinks hreach hn heq
    rw [if_pos heq] at hresult
    rw [hresult.1, hresult.2]
  | _ =>
    rw [hget] at hdone
    cases hdone

/-- What a search returns is the value of a node whose range agrees with the key. -/
lemma Looking.found {result : Option V} {accesses : Option ℤ} {x : V} (h : Looking c linked s t key)
    (hl : Links c linked s.list.memory) (hpc : s.get t = .done result accesses) (hresult : result = some x) :
    ∃ n ∈ linked, (s.list.memory.node n).is_equal_key key = true ∧ (s.list.memory.node n).value = some x := by
  have hnear := h.near
  rw [hpc] at hnear
  obtain ⟨curr, hlands, hend⟩ := hnear
  refine ⟨curr, hlands.mem hl, ?_⟩
  split_ifs at hend with heq
  · exact ⟨heq, hend.1.symm.trans hresult⟩
  · rw [hresult] at hend
    cases hend

end ObjectCache.LockFree.Get
