import ObjectCache.Iht.RdmaMap

/-! The lookup that takes no lock: it reads an EList as long as its copy of the PList does not show
a bucket between the two writes that publish a rehash. -/

set_option linter.unusedSectionVars false

namespace ObjectCache.Iht.Rdma

open Lib Cache

variable {A K V T : Type} [DecidableEq A] [DecidableEq K] [DecidableEq T] {c : Config A K}
  {s s' : State A K V T} {m : Memory A K V} {t : T} {x : Cursor A K V} {curr : PList A}
  {pc : Pc A K V} {p : A} {i : ℕ}

/-- A lookup reads an EList, and no more pairs than one has room for. -/
def ReadsElist (c : Config A K) (s : State A K V T) : Prop :=
  ∀ t x curr, s.pc t = .readElist x curr → c.free x.op →
    ∃ p i, (curr (c.bucket x)).base = .elist p i ∧ (s.memory.elists p i).length ≤ c.elist_size

/-- A rehash of this bucket has written its pointer, and its lock word has not landed. -/
def Publishing (c : Config A K) (s : State A K V T) (p : A) (i : ℕ) : Prop :=
  (∃ t x, s.pc t = .permUnlock x ∧ x.parent_ptr = p ∧ c.bucket x = i) ∨
    (p, i, .p_unlocked) ∈ s.memory.in_flight

/-- Every copy that a lookup takes is the PList's content at a moment at which no rehash of the
bucket that the lookup is at was being published. -/
def Settled (c : Config A K) (r : (machine c : Machine (State A K V T) (Act A K V T)).Run) : Prop :=
  ∀ i < r.len, ∀ t age x, r.act i = .read t age → (r.state i).pc t = .extendedRead x → c.free x.op →
    ∃ j ≤ i, ((r.state i).memory.history x.parent_ptr)[age]? =
        some ((r.state j).memory.plists x.parent_ptr) ∧
      ¬ Publishing c (r.state j) x.parent_ptr (c.bucket x)

/-- The client that has locked a bucket with a PList is about to unlock it for good. -/
lemma permUnlock_of_plist (h : (pc.role c).Ok c m) (hh : (pc.role c).holds = some (p, i)) {q : A}
    {marked : Bool} (hb : (m.plists p i).base = .plist q marked) :
    ∃ x, pc = .permUnlock x ∧ x.parent_ptr = p ∧ c.bucket x = i := by
  have hnot : m.plists p i ≠ ⟨.elist p i, .e_locked⟩ := by
    intro he
    rw [he] at hb
    cases hb
  cases hr : pc.role c with
  | free =>
    rw [hr] at hh
    cases hh
  | locked p' i' =>
    rw [hr] at h hh
    cases hh
    exact absurd h hnot
  | made p' i' new_p =>
    rw [hr] at h hh
    cases hh
    exact absurd h.1 hnot
  | published p' i' =>
    rw [hr] at hh
    cases hh
    cases pc with
    | permUnlock x =>
      cases hr
      exact ⟨x, rfl, rfl, rfl⟩
    | readElist x curr =>
      rw [Pc.role] at hr
      split_ifs at hr
    | _ => cases hr

/-- A bucket shows a PList before its permanent unlock only while one is being published. -/
lemma State.Inv.publishing (h : s.Inv c) (hl : (s.memory.plists p i).lock ≠ .p_unlocked)
    {q : A} {marked : Bool} (hb : (s.memory.plists p i).base = .plist q marked) :
    Publishing c s p i := by
  have hlock : (s.memory.plists p i).lock = .e_locked := by
    have hsound := h.locks.memory.sound p i
    cases hw : (s.memory.plists p i).lock with
    | e_locked => rfl
    | p_unlocked => exact absurd hw hl
    | e_unlocked =>
      rw [hsound.base_of_e_unlocked hw] at hb
      cases hb
  rcases h.locks.owned hlock with ⟨t, ht⟩ | ⟨w, hw⟩
  · exact .inl ⟨t, permUnlock_of_plist (h.locks.ok t) ht hb⟩
  · obtain ⟨-, hne, hs⟩ := h.locks.memory.in_flight hw
    rw [hb] at hs
    cases w with
    | e_locked => exact absurd rfl hne
    | e_unlocked => cases hs.base_of_e_unlocked rfl
    | p_unlocked => exact .inr hw

/-- What a lookup is about to read, whatever it has been told. -/
def Aims (c : Config A K) (pc : Pc A K V) : Prop :=
  ∀ x curr, pc = .readElist x curr → c.free x.op →
    ∃ p i, (curr (c.bucket x)).base = .elist p i

lemma Aims.put (h : ∀ u, Aims c (s.pc u)) (hpc : Aims c pc) (u : T) :
    Aims c ((s.put m t pc).pc u) := by
  by_cases hu : u = t
  · rwa [hu, put_pc_self]
  · rw [put_pc_other hu]
    exact h u

lemma aims_withElist {e : EList K V} : Aims c (withElist c x curr e) := by
  intro y curr' hpc hf
  obtain ⟨op, parent_ptr, marked, depth, count⟩ := x
  rw [withElist] at hpc
  cases op with
  | contains k =>
    dsimp only at hpc
    split_ifs at hpc
  | insert k v =>
    dsimp only at hpc
    split_ifs at hpc
  | remove k =>
    dsimp only at hpc
    split_ifs at hpc

lemma aims_step (hi : s.Inv c) (h : ∀ u, Aims c (s.pc u)) {a : Act A K V T} (hs : Step c s a s')
    (hread : ∀ t age x curr, a = .read t age → s.pc t = .extendedRead x → c.free x.op →
      (s.memory.history x.parent_ptr)[age]? = some curr → (curr (c.bucket x)).lock ≠ .p_unlocked →
      ∃ p i, (curr (c.bucket x)).base = .elist p i) : ∀ u, Aims c (s'.pc u) := by
  have hother : ∀ {pc : Pc A K V}, (∀ x curr, pc ≠ .readElist x curr) → Aims c pc :=
    fun hne x curr hpc _ => absurd hpc (hne x curr)
  cases hs with
  | call => exact Aims.put h (hother (by simp))
  | @read t age x curr pc ht hc hd =>
    refine Aims.put h fun y curr' hpc hf => ?_
    cases hd with
    | down => cases hpc
    | lookup hl hfree =>
      cases hpc
      exact hread t age _ _ rfl ht hf hc hl
    | lock => cases hpc
  | @acquire t x curr ht hl =>
    have hok := hi.ok t
    rw [ht] at hok
    refine Aims.put h fun y curr' hpc hf => ?_
    cases hpc
    rw [hok.1.updates] at hf
    cases hf
  | calcified => exact Aims.put h (hother (by simp))
  | spin => exact h
  | readElist => exact Aims.put h aims_withElist
  | writeElist => exact Aims.put h (hother (by simp))
  | changePointer => exact Aims.put h (hother (by simp))
  | permUnlock => exact Aims.put h (hother (by simp))
  | invalidate => exact Aims.put h (hother (by simp))
  | unlock => exact Aims.put h (hother (by simp))
  | allocate => exact Aims.put h (hother (by simp))
  | misread => exact Aims.put h (hother (by simp))
  | land => exact h
  | finish => exact Aims.put h (hother (by simp))

theorem readsElist_of_settled (r : (machine c : Machine (State A K V T) (Act A K V T)).Run)
    (h : Settled c r) {i : ℕ} (hi : i ≤ r.len) : ReadsElist c (r.state i) := by
  have haims : ∀ j ≤ r.len, ∀ t, Aims c ((r.state j).pc t) := by
    intro j
    induction j with
    | zero =>
      intro _ t x curr hpc
      rw [show r.state 0 = _ from r.start] at hpc
      cases hpc
    | succ j ih =>
      intro hj
      refine aims_step (inv_of_reachable (r.reachable j (by omega))) (ih (by omega))
        (step_cases (r.next j (by omega))) fun t age x curr ha ht hf hc hl => ?_
      obtain ⟨n, hn, hcopy, hpub⟩ := h j (by omega) t age x ha ht hf
      rw [hc] at hcopy
      cases hcopy
      have hinv := inv_of_reachable (r.reachable n (by omega))
      rcases (hinv.locks.memory.sound x.parent_ptr (c.bucket x)).tells.base with hb | ⟨q, marked, hb, -⟩
      · exact ⟨_, _, hb⟩
      · exact absurd (hinv.publishing hl hb) hpub
  intro t x curr ht hf
  obtain ⟨p, j, hb⟩ := haims i hi t x curr ht hf
  exact ⟨p, j, hb, (inv_of_reachable (r.reachable i hi)).locks.memory.full p j⟩

/-! ### A copy between the two writes -/

/-- The second client looks for 3 between the two writes that publish the rehash of 3 and 1. -/
def torn : List PairAct :=
  [.call false (.insert 1 10), .read false 0, .next false, .next false, .next false, .next false,
    .deliver 0, .finish false,
    .call false (.insert 3 30), .read false 0, .next false, .next false, .allocate false 1, .next false,
    .call true (.contains 3), .read true 0]

/-- The same lookup with the first copy of the root. -/
def whole : List PairAct := torn.dropLast ++ [.read true 4, .next true]

def tornRun : (machine (pair true) : Machine PairState PairAct).Run :=
  .ofActs _ (pairStart true) torn rfl (by decide +kernel)

def wholeRun : (machine (pair true) : Machine PairState PairAct).Run :=
  .ofActs _ (pairStart true) whole rfl (by decide +kernel)

/-- Whether a client is about to read an EList where its copy shows a PList. -/
def Pc.misreads {A K V : Type} (c : Config A K) : Pc A K V → Bool
  | .readElist x curr =>
    match (curr (c.bucket x)).base with
    | .plist _ _ => c.free x.op
    | .elist _ _ => false
  | _ => false

lemma Pc.not_readsElist (h : (s.pc t).misreads c) : ¬ ReadsElist c s := by
  intro hr
  cases ht : s.pc t with
  | readElist x curr =>
    rw [ht] at h
    cases hb : (curr (c.bucket x)).base with
    | elist p i => simp [Pc.misreads, hb] at h
    | plist q marked =>
      obtain ⟨p, i, hb', -⟩ := hr t x curr ht (by simpa [Pc.misreads, hb] using h)
      rw [hb] at hb'
      cases hb'
  | _ =>
    rw [ht] at h
    cases h

/-- A read of a PList by a lookup that takes no lock. -/
def freeRead {A K V T : Type} (c : Config A K) (s : State A K V T) : Act A K V T → Bool
  | .read t _ =>
    match s.pc t with
    | .extendedRead x => c.free x.op
    | _ => false
  | _ => false

lemma whole_freeRead : ∀ i < 17, freeRead (pair true) (wholeRun.state i) (wholeRun.act i) →
    i = 15 := by decide +kernel

lemma settled_whole : Settled (pair true) wholeRun := by
  intro i hi t age x ha ht hf
  have hread : freeRead (pair true) (wholeRun.state i) (wholeRun.act i) := by
    rw [ha, freeRead, ht]
    exact hf
  obtain rfl := whole_freeRead i hi hread
  cases (show wholeRun.act 15 = .read true 4 from rfl).symm.trans ha
  have hpc : (wholeRun.state 15).pc true = .extendedRead (.start (pair true) (.contains 3)) := rfl
  cases hpc.symm.trans ht
  refine ⟨0, Nat.zero_le _, rfl, ?_⟩
  rintro (⟨u, y, hu, -⟩ | hm)
  · cases hu
  · cases hm

theorem readsElist_whole : ReadsElist (pair true) (wholeRun.state wholeRun.len) :=
  readsElist_of_settled wholeRun settled_whole le_rfl

theorem not_readsElist_torn : ¬ ∀ (r : (machine (pair true) : Machine PairState PairAct).Run) (i : ℕ),
    i ≤ r.len → ReadsElist (pair true) (r.state i) := by
  intro h
  exact Pc.not_readsElist (t := true) (by decide +kernel) (h tornRun tornRun.len le_rfl)

end ObjectCache.Iht.Rdma
