import ObjectCache.Iht.LocalLocks
import ObjectCache.Lib.Counting

/-! Every step of `iht_carumap` is one step of a map that answers its calls at once, as long as its rehashes put
every key where the next level looks for it. -/

set_option linter.unusedSectionVars false

namespace ObjectCache.Iht.Local

open Lib

variable {K V T : Type} [DecidableEq K] [DecidableEq T]

/-! ### Who holds which lock -/

/-- A bucket is locked while exactly one thread holds it. -/
structure Locks (c : Config K) (m : Table K V) (pc : T → Pc K V) : Prop where
  locked : ∀ p i, (m.buckets p i).lock = .e_locked ↔ ∃ t, (pc t).holds c = some (p, i)
  unique : ∀ {t u b}, (pc t).holds c = some b → (pc u).holds c = some b → t = u

variable {c : Config K} {s s' : State K V T} {t u : T} {x : Cursor K V} {m m' : Table K V} {p q i j : ℕ}
  {f : K → Option V} {fails : Bool} {pc : T → Pc K V} {pc' : Pc K V}

lemma Locks.keep (h : Locks c m pc) (hpc : pc'.holds c = (pc t).holds c)
    (hm : ∀ p i, (m'.buckets p i).lock = (m.buckets p i).lock) : Locks c m' (Function.update pc t pc') := by
  have hsame : ∀ u, (Function.update pc t pc' u).holds c = (pc u).holds c := by
    intro u
    by_cases hu : u = t
    · subst hu
      rw [Function.update_self, hpc]
    · rw [Function.update_of_ne hu]
  constructor
  · intro p i
    simp only [hm, hsame]
    exact h.locked p i
  · intro t u b
    rw [hsame, hsame]
    exact h.unique

lemma setLock_buckets {l : LockState} : (m.setLock p i l).buckets q j =
    if q = p ∧ j = i then ⟨(m.buckets p i).base, l⟩ else m.buckets q j := setBucket_buckets _ _

lemma Locks.acquire (h : Locks c m pc) (ht : (pc t).holds c = none) (hpc : pc'.holds c = some (p, i))
    (hfree : (m.buckets p i).lock = .e_unlocked) :
    Locks c (m.setLock p i .e_locked) (Function.update pc t pc') := by
  have hnone : ∀ u, (pc u).holds c ≠ some (p, i) := by
    intro u hu
    have hlock := (h.locked p i).mpr ⟨u, hu⟩
    rw [hfree] at hlock
    cases hlock
  constructor
  · intro q j
    rw [setLock_buckets]
    by_cases hq : q = p ∧ j = i
    · obtain ⟨rfl, rfl⟩ := hq
      rw [if_pos ⟨rfl, rfl⟩]
      exact iff_of_true rfl ⟨t, by rw [Function.update_self, hpc]⟩
    · rw [if_neg hq, h.locked]
      refine exists_congr fun u => ?_
      by_cases hu : u = t
      · subst hu
        rw [Function.update_self, hpc, ht]
        refine iff_of_false (by simp) fun he => hq ?_
        cases he
        exact ⟨rfl, rfl⟩
      · rw [Function.update_of_ne hu]
  · intro u v b hu hv
    refine holder_update h.unique (fun b hb => .inr fun w _ hw => ?_) hu hv
    rw [hpc] at hb
    rw [← hb] at hw
    exact hnone w hw

lemma Locks.release (h : Locks c m pc) (ht : (pc t).holds c = some (p, i)) (hpc : pc'.holds c = none)
    {l : LockState} (hl : l ≠ .e_locked) : Locks c (m.setLock p i l) (Function.update pc t pc') := by
  constructor
  · intro q j
    rw [setLock_buckets]
    by_cases hq : q = p ∧ j = i
    · obtain ⟨rfl, rfl⟩ := hq
      rw [if_pos ⟨rfl, rfl⟩]
      refine iff_of_false hl ?_
      rintro ⟨u, hu⟩
      by_cases hut : u = t
      · subst hut
        rw [Function.update_self, hpc] at hu
        cases hu
      · rw [Function.update_of_ne hut] at hu
        exact hut (h.unique hu ht)
    · rw [if_neg hq, h.locked]
      refine exists_congr fun u => ?_
      by_cases hu : u = t
      · subst hu
        rw [Function.update_self, hpc, ht]
        refine iff_of_false (fun he => hq ?_) (by simp)
        cases he
        exact ⟨rfl, rfl⟩
      · rw [Function.update_of_ne hu]
  · intro u v b hu hv
    refine holder_update h.unique (fun b hb => ?_) hu hv
    rw [hpc] at hb
    cases hb

/-! ### The map that the threads share -/

def Pc.status : Pc K V → Status (MapOp K V) (Option V)
  | .idle => .idle
  | .load x | .cas x | .descend x | .bucket x | .publish x => .called x.op
  | .unlock _ ret | .done _ ret => .done ret

structure Refines (c : Config K) (s : State K V T) (a : Atomic (K → Option V) T (MapOp K V) (Option V)) :
    Prop where
  holds : Holds c s.table.settled a.state
  locks : Locks c s.table s.pc
  free : ∀ p i, (s.table.buckets p i).lock = .e_locked ∨ s.table.buckets p i = (s.table.buckets p i).settled
  pc : ∀ t, Ok c s.table (s.pc t)
  status : ∀ t, a.status t = (s.pc t).status

variable {a : Atomic (K → Option V) T (MapOp K V) (Option V)}

/-- The bucket of a holder is on the path of its key. -/
lemma Refines.held_lt (h : Refines c s a) (hu : (s.pc u).holds c = some (p, i)) : p < s.table.unmade := by
  have hok := h.pc u
  cases hpc : s.pc u with
  | bucket x | publish x | unlock x ret =>
    rw [hpc] at hu hok
    cases hu
    exact hok.1.lt h.holds.inv
  | _ =>
    rw [hpc] at hu
    cases hu

lemma Refines.base_of_locked (h : Refines c s a) (hl : (s.table.buckets p i).lock = .e_unlocked) :
    ∀ q, (s.table.buckets p i).base ≠ .plist q := by
  intro q hq
  rcases h.free p i with hlock | hsettled
  · rw [hl] at hlock
    cases hlock
  · rw [hsettled, settled_plist hq] at hl
    cases hl

lemma Refines.plist_of_calcified (h : Refines c s a) (hl : (s.table.buckets p i).lock = .p_unlocked) :
    ∃ q, (s.table.buckets p i).base = .plist q := by
  by_contra hq
  rcases h.free p i with hlock | hsettled
  · rw [hl] at hlock
    cases hlock
  · rw [hsettled, settled_open fun q hb => hq ⟨q, hb⟩] at hl
    cases hl

lemma Refines.unmade_lock (h : Refines c s a) (i : ℕ) : (s.table.buckets s.table.unmade i).lock = .e_unlocked := by
  rcases h.free s.table.unmade i with hlock | hsettled
  · obtain ⟨u, hu⟩ := (h.locks.locked _ i).mp hlock
    exact absurd (h.held_lt hu) (Nat.lt_irrefl _)
  · have hnew := h.holds.inv.unmade s.table.unmade i le_rfl
    rw [hsettled]
    exact congrArg Bucket.lock hnew

/-- One thread moves on; the others keep what they rely on. -/
lemma Refines.put (h : Refines c s a) {a' : Atomic (K → Option V) T (MapOp K V) (Option V)}
    (hholds : Holds c m'.settled a'.state) (hlocks : Locks c m' (Function.update s.pc t pc'))
    (hfree : ∀ p i, (m'.buckets p i).lock = .e_locked ∨ m'.buckets p i = (m'.buckets p i).settled)
    (hgrows : Grows c s.table m') (hok : Ok c m' pc')
    (hother : ∀ u, u ≠ t → ∀ p i, (s.pc u).holds c = some (p, i) →
      (m'.buckets p i).base = (s.table.buckets p i).base)
    (hstatus : a'.status = Function.update a.status t pc'.status) : Refines c (s.put m' t pc') a' where
  holds := hholds
  locks := hlocks
  free := hfree
  pc u := by
    simp only [State.put]
    by_cases hu : u = t
    · subst hu
      rwa [Function.update_self]
    · rw [Function.update_of_ne hu]
      exact (h.pc u).grows hgrows (hother u hu)
  status u := by
    rw [hstatus]
    simp only [State.put]
    by_cases hu : u = t
    · subst hu
      rw [Function.update_self, Function.update_self]
    · rw [Function.update_of_ne hu, Function.update_of_ne hu]
      exact h.status u

lemma Refines.status_self (h : Refines c s a) (hpc : pc'.status = (s.pc t).status) :
    a.status = Function.update a.status t pc'.status := by
  rw [hpc, ← h.status t, Function.update_eq_self]

/-- A step that leaves the table as it is. -/
lemma Refines.stay (h : Refines c s a) {a' : Atomic (K → Option V) T (MapOp K V) (Option V)}
    (hstate : a'.state = a.state) (hheld : pc'.holds c = (s.pc t).holds c) (hok : Ok c s.table pc')
    (hstatus : a'.status = Function.update a.status t pc'.status) : Refines c (s.put s.table t pc') a' := by
  apply h.put
  · rw [hstate]
    exact h.holds
  · exact h.locks.keep hheld fun _ _ => rfl
  · exact h.free
  · exact .of_settled rfl
  · exact hok
  · exact fun _ _ _ _ _ => rfl
  · exact hstatus

lemma Refines.setLock (h : Refines c s a) {x : Cursor K V} {l : LockState}
    (hlocks : Locks c (s.table.setLock x.curr (c.index x) l) (Function.update s.pc t pc'))
    (hl : l = .e_locked ∨ (⟨(s.table.buckets x.curr (c.index x)).base, l⟩ : Bucket K V) =
      (s.table.buckets x.curr (c.index x)).settled)
    (hok : Ok c (s.table.setLock x.curr (c.index x) l) pc') (hpc : pc'.status = (s.pc t).status) :
    Refines c (s.put (s.table.setLock x.curr (c.index x) l) t pc') a := by
  have hbase : ∀ p i, ((s.table.setLock x.curr (c.index x) l).buckets p i).base =
      (s.table.buckets p i).base := by
    intro p i
    rw [setLock_buckets]
    split_ifs with hp
    · obtain ⟨rfl, rfl⟩ := hp
      rfl
    · rfl
  apply h.put
  · rw [settled_setLock]
    exact h.holds
  · exact hlocks
  · intro p i
    rw [setLock_buckets]
    split_ifs with hp
    · refine hl.imp id fun hs => ?_
      rw [hs]
      cases hb : (s.table.buckets x.curr (c.index x)).base with
      | plist q => rw [settled_plist hb]; rfl
      | null | elist e =>
        rw [settled_open (by rw [hb]; simp), hb]
        rfl
    · exact h.free p i
  · exact .of_settled settled_setLock
  · exact hok
  · exact fun u _ p i _ => hbase p i
  · exact h.status_self hpc

lemma setLock_base {l : LockState} : ((m.setLock p i l).buckets p i).base = (m.buckets p i).base := by
  rw [setLock_buckets, if_pos ⟨rfl, rfl⟩]

lemma OnPath.setLock {l : LockState} (h : OnPath c m x) : OnPath c (m.setLock p i l) x :=
  h.grows (.of_settled settled_setLock)

lemma Refines.acquire (h : Refines c s a) (ht : s.pc t = .cas x)
    (hl : (s.table.buckets x.curr (c.index x)).lock = .e_unlocked) :
    Refines c (s.put (s.table.setLock x.curr (c.index x) .e_locked) t (.bucket x)) a := by
  have hok := h.pc t
  rw [ht] at hok
  apply h.setLock
  · apply h.locks.acquire
    · rw [ht]
      rfl
    · rfl
    · exact hl
  · exact .inl rfl
  · refine ⟨OnPath.setLock hok, ?_⟩
    rw [setLock_base]
    exact h.base_of_locked hl
  · rw [ht]
    rfl

lemma Refines.publish (h : Refines c s a) (ht : s.pc t = .publish x) :
    Refines c (s.put (s.table.setLock x.curr (c.index x) .p_unlocked) t (.load x)) a := by
  have hok := h.pc t
  rw [ht] at hok
  obtain ⟨hpath, q, hq⟩ := hok
  apply h.setLock
  · apply h.locks.release
    · rw [ht]
      rfl
    · rfl
    · simp
  · rw [settled_plist hq, hq]
    exact .inr rfl
  · exact OnPath.setLock hpath
  · rw [ht]
    rfl

lemma Refines.unlock (h : Refines c s a) {ret : Option V} (ht : s.pc t = .unlock x ret) :
    Refines c (s.put (s.table.setLock x.curr (c.index x) .e_unlocked) t (.done x.op ret)) a := by
  have hok := h.pc t
  rw [ht] at hok
  apply h.setLock
  · apply h.locks.release
    · rw [ht]
      rfl
    · rfl
    · simp
  · rw [settled_open hok.2]
    exact .inr rfl
  · trivial
  · rw [ht]
    rfl

/-! ### Visits -/

/-- The visit of a holder, whatever the other threads do meanwhile. -/
lemma Refines.visited (h : Refines c s a) (ht : s.pc t = .bucket x) (hv : Visited c s.table m' x)
    {a' : Atomic (K → Option V) T (MapOp K V) (Option V)} (hholds : Holds c m'.settled a'.state)
    (hheld : pc'.holds c = some (x.curr, c.index x)) (hok : Ok c m' pc')
    (hstatus : a'.status = Function.update a.status t pc'.status) : Refines c (s.put m' t pc') a' := by
  have hmine : (s.pc t).holds c = some (x.curr, c.index x) := by
    rw [ht]
    rfl
  have hlock : ∀ p i, (m'.buckets p i).lock = (s.table.buckets p i).lock := by
    intro p i
    by_cases hp : (p, i) = (x.curr, c.index x)
    · cases hp
      exact hv.own
    · rcases hv.other p i hp with hsame | ⟨rfl, ho⟩
      · rw [hsame]
      · rw [ho.lock, h.unmade_lock]
  apply h.put hholds
  · exact h.locks.keep (hheld.trans hmine.symm) hlock
  · intro p i
    by_cases hp : (p, i) = (x.curr, c.index x)
    · cases hp
      rw [hv.own]
      exact .inl ((h.locks.locked _ _).mpr ⟨t, hmine⟩)
    · rcases hv.other p i hp with hsame | ⟨-, ho⟩
      · rw [hsame]
        exact h.free p i
      · exact .inr ho.settled.symm
  · exact hv.grows
  · exact hok
  · intro u hu p i hheld'
    have hp : (p, i) ≠ (x.curr, c.index x) := by
      intro he
      rw [he] at hheld'
      exact hu (h.locks.unique hheld' hmine)
    rcases hv.other p i hp with hsame | ⟨rfl, -⟩
    · rw [hsame]
    · exact absurd (h.held_lt hheld') (Nat.lt_irrefl _)
  · exact hstatus

lemma aligned_pairs (ht : s.pc t = .bucket x) (ha : Aligned c s (.next t fails))
    (hv : visit c s.table x = some (m', pc')) : ∀ kv ∈ x.pairs c s.table, pc' = .publish x →
      c.levelHash kv.1 (x.depth + 1) x.count = c.levelHash kv.1 (x.depth + 2) (x.count * 2) := by
  intro kv hkv hpub
  cases visit_cases hv with
  | @grow k v hop hnone hfull =>
    cases hb : (s.table.buckets x.curr (c.index x)).base with
    | elist e =>
      have hpairs : x.pairs c s.table = e := by
        rw [Cursor.pairs, hb]
        rfl
      rw [hpairs] at hkv hnone hfull
      simp only [Aligned, ht, hop, hb, hnone, Option.isSome_none, Bool.false_or, Bool.or_eq_true,
        decide_eq_true_eq, List.all_eq_true] at ha
      exact ha.resolve_left (Nat.not_lt_of_le hfull) kv hkv
    | _ =>
      rw [Cursor.pairs, hb] at hkv
      cases hkv
  | _ => cases hpub

lemma Refines.visit (h : Refines c s a) (ht : s.pc t = .bucket x) (ha : Aligned c s (.next t fails))
    (hv : visit c s.table x = some (m', pc')) :
    ∃ a', a.Moves (mapObject K V) none a' ∧ Refines c (s.put m' t pc') a' := by
  have hok := h.pc t
  have hstatus := h.status t
  rw [ht] at hok hstatus
  obtain ⟨⟨d, hs⟩, hb⟩ := hok
  have hgrows := fun m (hm : Visited c s.table m x) => OnPath.grows ⟨d, hs⟩ hm.grows
  obtain ⟨hvis, ⟨rfl, hholds, hopen⟩ | ⟨rfl, hholds, hplist⟩⟩ :=
    (visit_cases hv).holds hs hb h.holds (aligned_pairs ht ha hv)
  · refine ⟨_, .commit hstatus, ?_⟩
    apply h.visited ht hvis
    · exact hholds
    · rfl
    · exact ⟨hgrows m' hvis, hopen⟩
    · rfl
  · refine ⟨a, .hidden, ?_⟩
    apply h.visited ht hvis hholds
    · rfl
    · exact ⟨hgrows m' hvis, hplist⟩
    · apply h.status_self
      rw [ht]
      rfl

/-! ### Runs -/

lemma Refines.init : Refines c (⟨.empty, fun _ => .idle⟩ : State K V T)
    ⟨(mapObject K V).init, fun _ => .idle⟩ where
  holds := Holds.empty
  locks := by
    constructor
    · exact fun p i => iff_of_false (by simp [Table.empty]) (by rintro ⟨t, ht⟩; cases ht)
    · intro t u b ht
      cases ht
  free p i := .inr rfl
  pc t := trivial
  status t := rfl

lemma Refines.hide (h : Refines c s a) (hheld : pc'.holds c = (s.pc t).holds c) (hok : Ok c s.table pc')
    (hpc : pc'.status = (s.pc t).status) :
    ∃ a', a.Moves (mapObject K V) none a' ∧ Refines c (s.put s.table t pc') a' :=
  ⟨a, .hidden, h.stay rfl hheld hok (h.status_self hpc)⟩

lemma Refines.step (h : Refines c s a) {y : Act K V T} (ha : Aligned c s y) (hs : step c s y = some s') :
    ∃ a', a.Moves (mapObject K V) (observe s y) a' ∧ Refines c s' a' := by
  cases step_cases hs with
  | @call t op ht =>
    refine ⟨_, .call ?_, ?_⟩
    · rw [h.status, ht]
      rfl
    · apply h.stay
      · rfl
      · rw [ht]
        rfl
      · exact ⟨0, .root⟩
      · rfl
  | @load t fails x ht hl =>
    have hok := h.pc t
    rw [ht] at hok
    apply h.hide
    · rw [ht]
      rfl
    · exact hok
    · rw [ht]
      rfl
  | spin => exact ⟨a, .hidden, h⟩
  | @calcified t fails x ht hl =>
    have hplist := h.plist_of_calcified hl
    have hok := h.pc t
    rcases ht with ht | ht
    · rw [ht] at hok
      apply h.hide
      · rw [ht]
        rfl
      · exact ⟨hok, hplist⟩
      · rw [ht]
        rfl
    · rw [ht] at hok
      apply h.hide
      · rw [ht]
        rfl
      · exact ⟨hok, hplist⟩
      · rw [ht]
        rfl
  | @retry t fails x ht =>
    have hok := h.pc t
    rw [ht] at hok
    apply h.hide
    · rw [ht]
      rfl
    · exact hok
    · rw [ht]
      rfl
  | acquire ht hl => exact ⟨a, .hidden, h.acquire ht hl⟩
  | @descend t fails x p ht hp =>
    have hok := h.pc t
    rw [ht] at hok
    obtain ⟨⟨d, hst⟩, -⟩ := hok
    apply h.hide
    · rw [ht]
      rfl
    · refine ⟨d + 1, hst.succ ?_⟩
      rw [← index_slot hst]
      simp only [Table.trie, Table.settled, settled_plist hp]
      rfl
    · rw [ht]
      rfl
  | visit ht hv => exact h.visit ht ha hv
  | publish ht => exact ⟨a, .hidden, h.publish ht⟩
  | unlock ht => exact ⟨a, .hidden, h.unlock ht⟩
  | @finish t op ret ht =>
    have hobs : observe s (.finish t : Act K V T) = some (.ret t ret) := by
      simp only [observe, ht]
    rw [hobs]
    refine ⟨_, .ret ?_, ?_⟩
    · rw [h.status, ht]
      rfl
    · apply h.stay
      · rfl
      · rw [ht]
        rfl
      · trivial
      · rfl

lemma implements : Implements ((machine c : Machine (State K V T) (Act K V T)).only (Aligned c))
    (mapObject K V) observe (Refines c) where
  init s hs := by
    obtain rfl : s = ⟨.empty, fun _ => .idle⟩ := hs
    exact .init
  step s y s' a h hs := by
    have ha : Aligned c s y := by
      by_contra hna
      exact absurd ((if_neg hna).symm.trans hs) (by simp)
    exact h.step ha ((if_pos ha).symm.trans hs)

/-- As long as every rehash puts its keys where the next level looks for them, the calls of any number of
threads are calls of one map. -/
theorem calls_linearizable (r : (machine c : Machine (State K V T) (Act K V T)).Run) {n : ℕ} (hn : n ≤ r.len)
    (ha : ∀ i < n, Aligned c (r.state i) (r.act i)) :
    Linearizable (mapObject K V) (r.history observe n) :=
  implements.linearizable_only r hn ha

/-! A run of two threads: one spins on the bucket where the other inserts a key, rehashes it and inserts its own
key below, while the first looks its key up again. -/

instance : Inhabited (Act K V Bool) := ⟨.finish false⟩

abbrev CrowdState := State (BitVec 64) ℕ Bool

abbrev CrowdAct := Act (BitVec 64) ℕ Bool

def steps (t : Bool) (n : ℕ) : List CrowdAct := List.replicate n (.next t false)

def crowdActs : List CrowdAct :=
  .call false (.insert 0 10) :: .call true (.insert 1 11) :: steps false 2 ++ steps true 1 ++ steps false 2 ++
    .finish false :: steps true 1 ++ .next true true :: steps true 3 ++ .call false (.contains 0) ::
    steps false 1 ++ steps true 7 ++ .finish true :: steps false 6 ++ [.finish false]

lemma crowd_enabled : (Machine.exec (machine single) (⟨.empty, fun _ => .idle⟩ : CrowdState) crowdActs).isSome := by
  decide +kernel

def crowdRun : (machine single : Machine CrowdState CrowdAct).Run := .ofActs _ _ crowdActs rfl crowd_enabled

theorem calls_linearizable_crowd : Linearizable (mapObject (BitVec 64) ℕ) (crowdRun.history observe 30) ∧
    (crowdRun.history observe 30).length = 6 := by
  refine ⟨calls_linearizable crowdRun (by decide +kernel) (by decide +kernel), by decide +kernel⟩

end ObjectCache.Iht.Local
