import ObjectCache.Lib.FiniteMap
import ObjectCache.Iht.TunedFetches
import Mathlib.Data.Fintype.Basic

/-! Calls to `TunedRdmaIHT` one after another: a client answers as the finite map does, except that a
change to an EList of its own node is lost. -/

set_option linter.unusedSectionVars false

namespace ObjectCache.Iht.Tuned

open Lib Cache Rdma

variable {A K V N T : Type} [DecidableEq A] [DecidableEq K] [DecidableEq N] [DecidableEq T]
  {c : Config A K} {n : Nodes N T} {m : Memory A K V} {s s' : State A K V N T} {t u : T}
  {x : Context A K V} {curr : PList A} {pc : Pc A K V} {e : EList K V} {did_acquire is_local : Bool}

/-! ### Runs of calls -/

/-- The call that a step finishes, with its answer. -/
def answered (s : State A K V N T) : Act A K V T → Option (MapOp K V × Option V)
  | .finish t =>
    match s.pc t with
    | .done op ret => some (op, ret)
    | _ => none
  | _ => none

def answers (r : (machine c n : Machine (State A K V N T) (Act A K V T)).Run) (i : ℕ) :
    List (MapOp K V × Option V) :=
  (List.range i).flatMap fun j => (answered (r.state j) (r.act j)).toList

lemma answers_succ (r : (machine c n : Machine (State A K V N T) (Act A K V T)).Run) (i : ℕ) :
    answers r (i + 1) = answers r i ++ (answered (r.state i) (r.act i)).toList := by
  simp [answers, List.range_succ]

/-- A call begins when no other is under way. -/
def Alone (s : State A K V N T) : Act A K V T → Prop
  | .call _ _ => ∀ u, s.pc u = .idle
  | _ => True

def Pc.isIdle : Pc A K V → Bool
  | .idle => true
  | _ => false

lemma Pc.isIdle_iff : pc.isIdle ↔ pc = .idle := by
  cases pc <;> simp [Pc.isIdle]

instance : Decidable (pc = .idle) := decidable_of_iff _ Pc.isIdle_iff

instance [Fintype T] : DecidablePred (Alone (s : State A K V N T)) := fun a =>
  match a with
  | .call _ _ => inferInstanceAs (Decidable (∀ u, s.pc u = .idle))
  | .next _ | .allocate _ _ | .deliver _ | .finish _ => .isTrue trivial

/-- The list that the client is about to read changes with its operation. -/
def changes (c : Config A K) (op : MapOp K V) (e : EList K V) : Bool :=
  match op with
  | .insert k _ => (e.lookup k).isNone && e.length < c.elist_size
  | .remove k => (e.lookup k).isSome
  | .contains _ => false

/-- The step of a client that changes its copy of an EList of its own node. -/
def loses (c : Config A K) (n : Nodes N T) (s : State A K V N T) : Act A K V T → Bool
  | .next t =>
    match s.pc t with
    | .readElist x curr _ =>
      match (curr (bucketOf c x)).base with
      | .elist p i => s.owner p = n.self t && changes c x.op (s.memory.elists p i)
      | .plist _ _ => false
    | _ => false
  | _ => false

/-- A call that has read or changed its list. -/
structure Effect (K V : Type) where
  op : MapOp K V
  ret : Option V
  lost : Bool

def Effect.call (y : Effect K V) : MapOp K V × Option V := (y.op, y.ret)

/-- A call whose change is lost is only a lookup. -/
def Effect.actual (y : Effect K V) : MapOp K V × Option V :=
  (if y.lost then .contains y.op.key else y.op, y.ret)

def Pc.answer : Pc A K V → Option (MapOp K V × Option V)
  | .unlock x ret => some (x.op, ret)
  | .done op ret => some (op, ret)
  | _ => none

/-- The calls in `h` are finished, and at most one more has taken effect. -/
def Finished (s : State A K V N T) (l h : List (MapOp K V × Option V)) : Prop :=
  (∀ t, (s.pc t).answer = none) ∧ l = h ∨ ∃ t y, (s.pc t).answer = some y ∧ l = h ++ [y]

structure Refines (c : Config A K) (s : State A K V N T) (l : List (Effect K V))
    (h : List (MapOp K V × Option V)) : Prop where
  inv : s.Inv c
  alone : ∀ {t u}, s.pc t ≠ .idle → s.pc u ≠ .idle → t = u
  current : ∀ {t x curr}, s.pc t = .readElist x curr false →
    (curr (bucketOf c x)).base = (s.memory.plists x.parent_ptr (bucketOf c x)).base
  holds : Holds c.slot (s.memory.trie c) (after (fun _ => none) (l.map Effect.actual))
  answers : Answers (fun _ => none) (l.map Effect.actual)
  finished : Finished s (l.map Effect.call) h

/-- With the list of its key a closure answers for the map. -/
lemma apply_cases {f : K → Option V} (hl : e.lookup x.op.key = f x.op.key)
    (hn : (e.map Prod.fst).Nodup) :
    apply c is_local x curr did_acquire e = leave x did_acquire (f x.op.key) ∧
        (x.op.apply f = f ∨ is_local ∧ changes c x.op e) ∨
      apply c is_local x curr did_acquire e = .rehash x curr ∨
      ∃ e' ret, apply c is_local x curr did_acquire e = .writeElist x curr e' ret := by
  obtain ⟨op, parent_ptr, path, depth, count⟩ := x
  dsimp only at hl ⊢
  rw [apply]
  cases op with
  | contains k =>
    simp only [MapOp.key] at hl ⊢
    exact .inl ⟨by rw [hl], .inl rfl⟩
  | insert k v =>
    simp only [MapOp.key] at hl ⊢
    split_ifs with hk hlen hlocal
    · rw [hl] at hk ⊢
      exact .inl ⟨rfl, .inl (apply_insert_of_some hk)⟩
    · have hnone : e.lookup k = none := by simpa using hk
      refine .inl ⟨by rw [← hl, hnone], .inr ⟨hlocal, ?_⟩⟩
      simp [changes, hnone, hlen]
    · exact .inr (.inr ⟨_, _, rfl⟩)
    · exact .inr (.inl rfl)
  | remove k =>
    simp only [MapOp.key] at hl ⊢
    rw [removeFrom_eq hn]
    dsimp only
    rw [hl]
    split_ifs with hk
    · refine .inl ⟨rfl, ?_⟩
      cases hf : f k with
      | none => exact .inl (apply_remove_of_none hf)
      | some v =>
        refine .inr ⟨by simpa [hf] using hk, ?_⟩
        simp [changes, hl, hf]
    · exact .inr (.inr ⟨_, _, rfl⟩)

/-! ### The steps -/

section Steps

variable {l l' : List (Effect K V)} {h h' : List (MapOp K V × Option V)}

lemma finished_iff {k : List (MapOp K V × Option V)} (ho : ∀ u, u ≠ t → s.pc u = .idle) :
    Finished s k h ↔ k = h ++ (s.pc t).answer.toList := by
  have hother : ∀ u y, (s.pc u).answer = some y → u = t := by
    intro u y hy
    by_contra hu
    rw [ho u hu] at hy
    cases hy
  constructor
  · rintro (⟨hnone, rfl⟩ | ⟨u, y, hy, rfl⟩)
    · simp [hnone t]
    · obtain rfl := hother u y hy
      simp [hy]
  · rintro rfl
    cases hy : (s.pc t).answer with
    | none =>
      refine .inl ⟨fun u => ?_, by simp⟩
      by_contra hu
      obtain ⟨y, hy'⟩ := Option.ne_none_iff_exists'.mp hu
      obtain rfl := hother u y hy'
      rw [hy] at hy'
      cases hy'
    | some y => exact .inr ⟨t, y, hy, by simp⟩

lemma Refines.others (hr : Refines c s l h) (ht : s.pc t ≠ .idle) : ∀ u, u ≠ t → s.pc u = .idle := by
  intro u hu
  by_contra hne
  exact hu (hr.alone hne ht)

/-- A step of the only client that is under way. -/
lemma Refines.to (ho : ∀ u, u ≠ t → s.pc u = .idle)
    (hpc : s'.pc = Function.update s.pc t pc) (hi : s'.Inv c)
    (hcur : ∀ x curr, pc = .readElist x curr false →
      (curr (bucketOf c x)).base = (s'.memory.plists x.parent_ptr (bucketOf c x)).base)
    (hf : Holds c.slot (s'.memory.trie c) (after (fun _ => none) (l'.map Effect.actual)))
    (ha : Answers (fun _ => none) (l'.map Effect.actual))
    (hl : l'.map Effect.call = h' ++ pc.answer.toList) : Refines c s' l' h' := by
  have hself : s'.pc t = pc := by rw [hpc, Function.update_self]
  have ho' : ∀ u, u ≠ t → s'.pc u = .idle := by
    intro u hu
    rw [hpc, Function.update_of_ne hu]
    exact ho u hu
  have honly : ∀ u, s'.pc u ≠ .idle → u = t := by
    intro u hu
    by_contra hne
    exact hu (ho' u hne)
  refine ⟨hi, fun {u w} hu hw => ?_, fun {u y curr} hu => ?_, hf, ha, ?_⟩
  · rw [honly u hu, honly w hw]
  · obtain rfl := honly u (by rw [hu]; simp)
    exact hcur y curr (hself.symm.trans hu)
  · rw [finished_iff ho', hself]
    exact hl

/-- A step that does not answer. -/
lemma Refines.hidden (hr : Refines c s l h) (ht : s.pc t ≠ .idle)
    (hpc : s'.pc = Function.update s.pc t pc) (hi : s'.Inv c)
    (hcur : ∀ x curr, pc = .readElist x curr false →
      (curr (bucketOf c x)).base = (s'.memory.plists x.parent_ptr (bucketOf c x)).base)
    (htrie : Holds c.slot (s'.memory.trie c) (after (fun _ => none) (l.map Effect.actual)))
    (ha : pc.answer = (s.pc t).answer) : Refines c s' l h := by
  have ho := hr.others ht
  refine Refines.to ho hpc hi hcur htrie hr.answers ?_
  rw [ha]
  exact (finished_iff ho).mp hr.finished

/-- The step at which a call takes effect. -/
lemma Refines.commit (hr : Refines c s l h) (ht : (s.pc t).answer = none) (hne : s.pc t ≠ .idle)
    (hpc : s'.pc = Function.update s.pc t pc) (hi : s'.Inv c) (hread : ∀ x curr, pc ≠ .readElist x curr false)
    {y : Effect K V} (hans : pc.answer = some y.call)
    (hret : y.ret = after (fun _ => none) (l.map Effect.actual) y.op.key)
    (hf : Holds c.slot (s'.memory.trie c)
      (y.actual.1.apply (after (fun _ => none) (l.map Effect.actual)))) :
    Refines c s' (l ++ [y]) h := by
  have hkey : y.actual.1.key = y.op.key := by
    rw [Effect.actual]
    split_ifs <;> rfl
  have hl := (finished_iff (hr.others hne)).mp hr.finished
  have hconcat : (l ++ [y]).map Effect.actual = l.map Effect.actual ++ [(y.actual.1, y.ret)] := by
    simp [Effect.actual]
  refine Refines.to (hr.others hne) hpc hi (fun x curr he => absurd he (hread x curr)) ?_ ?_ ?_
  · rw [hconcat, after_concat]
    exact hf
  · rw [hconcat, answers_concat, hkey]
    exact ⟨hr.answers, hret⟩
  · rw [List.map_append, hl, ht, hans]
    simp

/-- What the loop has read is what the PList holds, unless it goes further down. -/
lemma current_of_enter (he : enter c x curr = some pc) {y : Context A K V} {curr' : PList A}
    (hpc : pc = .readElist y curr' false) : y = x ∧ curr' = curr ∧
      (curr (bucketOf c x)).lock ≠ .p_unlocked := by
  cases entered_of_enter he with
  | down => cases hpc
  | read hl => cases hpc; exact ⟨rfl, rfl, hl⟩
  | lock => cases hpc

lemma answer_of_enter (he : enter c x curr = some pc) : pc.answer = none := by
  cases entered_of_enter he <;> rfl

/-- The buckets that a key can lead to are calcified in every saved copy. -/
lemma Saved.Ok.calcified {cache : Saved A} (hs : cache.Ok c m) (hx : x.At c m)
    (hp : cache.path = x.path) : (cache.buckets (bucketOf c x)).lock = .p_unlocked := by
  obtain ⟨p, -, hlen, -, hlock⟩ := hs.follow_eq
  have hb : bucketOf c x = c.slot (x.depth - 1) x.op.key := hx.stands.bucket
  have hlt : c.slot (x.depth - 1) x.op.key < c.plist_size * 2 ^ (x.depth - 1) - 1 := slot_lt_count
  apply hlock
  rw [hlen, hp, hx.path, length_bucketPath, hb]
  exact hlt

lemma Refines.readElist (hr : Refines c s l h) {p : A} {i : ℕ}
    (ht : s.pc t = .readElist x curr did_acquire) (hb : (curr (bucketOf c x)).base = .elist p i)
    (hi : State.Inv c (s.put s.memory t
      (apply c (s.owner p = n.self t) x curr did_acquire (s.memory.elists p i)))) :
    ∃ l', Refines c (s.put s.memory t
        (apply c (s.owner p = n.self t) x curr did_acquire (s.memory.elists p i))) l' h ∧
      (loses c n s (.next t) = false → (∀ y ∈ l, y.lost = false) → ∀ y ∈ l', y.lost = false) := by
  have hok := hr.inv.ok t
  rw [ht] at hok
  obtain ⟨hx, -, hacq⟩ := hok
  have hbase : (s.memory.plists x.parent_ptr (bucketOf c x)).base =
      .elist x.parent_ptr (bucketOf c x) := by
    cases did_acquire with
    | false =>
      rcases (hr.inv.locks.memory.sound x.parent_ptr (bucketOf c x)).tells.base with hm | ⟨q, _, hm, -⟩
      · exact hm
      · rw [hr.current ht, hm] at hb
        cases hb
    | true => exact hr.inv.base (t := t) (by rw [ht]; rfl)
  have hname : Base.elist p i = .elist x.parent_ptr (bucketOf c x) := by
    cases did_acquire with
    | false => rw [← hb, hr.current ht, hbase]
    | true =>
      have hn : x.Names c curr := hacq
      rw [← hb, hn]
  cases hname
  have hl : (s.memory.elists x.parent_ptr (bucketOf c x)).lookup x.op.key =
      after (fun _ => none) (l.map Effect.actual) x.op.key := hx.stands.lookup hbase hr.holds
  have hn : ((s.memory.elists x.parent_ptr (bucketOf c x)).map Prod.fst).Nodup := by
    have hnodup := hr.holds.placed.nodup x.parent_ptr (bucketOf c x)
    rwa [items_of_linked hx.stands.onPath.linked (by rw [hbase, child_elist])] at hnodup
  have hne : s.pc t ≠ .idle := by rw [ht]; simp
  have hnone : (s.pc t).answer = none := by rw [ht]; rfl
  have hloses : loses c n s (.next t) = (decide (s.owner x.parent_ptr = n.self t) &&
      changes c x.op (s.memory.elists x.parent_ptr (bucketOf c x))) := by
    simp [loses, ht, hb]
  have hcases : apply c (s.owner x.parent_ptr = n.self t) x curr did_acquire
        (s.memory.elists x.parent_ptr (bucketOf c x)) =
          leave x did_acquire (after (fun _ => none) (l.map Effect.actual) x.op.key) ∧ _ ∨ _ ∨ _ :=
    apply_cases hl hn
  rcases hcases with ⟨he, hsame⟩ | he | ⟨e', ret, he⟩
  · rw [he] at hi ⊢
    refine ⟨_, hr.commit (y := ⟨x.op, after (fun _ => none) (l.map Effect.actual) x.op.key,
      loses c n s (.next t)⟩) hnone hne rfl hi ?_ ?_ rfl ?_, ?_⟩
    · cases did_acquire <;> simp [leave]
    · cases did_acquire <;> rfl
    · cases hlost : loses c n s (.next t) with
      | true => exact hr.holds
      | false =>
        rcases hsame with hsame | ⟨hlocal, hch⟩
        · simp only [Effect.actual, Bool.false_eq_true, if_false, hsame]
          exact hr.holds
        · rw [hloses, hlocal, hch] at hlost
          cases hlost
    · intro hlost hall y hy
      rcases List.mem_append.mp hy with hy | hy
      · exact hall y hy
      · rw [List.mem_singleton.mp hy]
        exact hlost
  · rw [he] at hi ⊢
    exact ⟨l, hr.hidden hne rfl hi (by simp) hr.holds hnone.symm, fun _ hall => hall⟩
  · rw [he] at hi ⊢
    exact ⟨l, hr.hidden hne rfl hi (by simp) hr.holds hnone.symm, fun _ hall => hall⟩

/-- What a step makes of the calls that have taken effect. -/
def Advances (c : Config A K) (n : Nodes N T) (s s' : State A K V N T) (a : Act A K V T)
    (l : List (Effect K V)) (h : List (MapOp K V × Option V)) : Prop :=
  ∃ l', Refines c s' l' (h ++ (answered s a).toList) ∧
    (loses c n s a = false → (∀ y ∈ l, y.lost = false) → ∀ y ∈ l', y.lost = false)

lemma Refines.advances {a : Act A K V T} (h' : Refines c s' l h) (ha : answered s a = none) :
    Advances c n s s' a l h :=
  ⟨l, by simpa [ha] using h', fun _ hall => hall⟩

lemma Refines.step (hr : Refines c s l h) (hu : Unmixed c s) {a : Act A K V T} (ho : Alone s a)
    (hs : Step c n s a s') : Advances c n s s' a l h := by
  have hi := hr.inv.step hu hs
  cases hs with
  | @call t op ht =>
    have hothers : ∀ u, u ≠ t → s.pc u = .idle := fun u _ => ho u
    have hl := (finished_iff hothers).mp hr.finished
    have hr' : Refines c (s.put s.memory t (.fetch (.start c op))) l h := by
      refine Refines.to hothers rfl hi (by simp) hr.holds hr.answers ?_
      simpa [ht, Pc.answer] using hl
    exact hr'.advances rfl
  | @hit t x cache pc ht hf he =>
    have hok := hr.inv.ok t
    rw [ht] at hok
    refine (hr.hidden (by rw [ht]; simp) rfl hi (fun y curr hpc => ?_) hr.holds ?_).advances rfl
    · obtain ⟨-, -, hlock⟩ := current_of_enter he hpc
      obtain ⟨y, hy⟩ := mem_of_fetch_cache hf
      have hsaved : cache.Ok c s.memory := hr.inv.saved hy
      exact absurd (hsaved.calcified hok (hu t x cache ht hf)) hlock
    · rw [answer_of_enter he, ht]
      rfl
  | @miss t x ht hf =>
    exact (hr.hidden (by rw [ht]; simp) rfl hi (by simp) hr.holds (by rw [ht]; rfl)).advances rfl
  | @extendedRead t x pc ht he =>
    refine (hr.hidden (by rw [ht]; simp) rfl hi (fun y curr hpc => ?_) hr.holds ?_).advances rfl
    · obtain ⟨rfl, rfl, -⟩ := current_of_enter he hpc
      rfl
    · rw [answer_of_enter he, ht]
      rfl
  | @refetch t x pc ht he =>
    refine (hr.hidden (by rw [ht]; simp) rfl hi (fun y curr hpc => ?_) hr.holds ?_).advances rfl
    · obtain ⟨rfl, rfl, -⟩ := current_of_enter he hpc
      rfl
    · rw [answer_of_enter he, ht]
      rfl
  | @acquire t x curr ht hl =>
    have htrie : (s.memory.setBucket x.parent_ptr (bucketOf c x)
        ⟨(s.memory.plists x.parent_ptr (bucketOf c x)).base, .e_locked⟩).trie c = s.memory.trie c :=
      trie_setBucket rfl
    refine (hr.hidden (by rw [ht]; simp) rfl hi (by simp) ?_ (by rw [ht]; rfl)).advances rfl
    simp only [State.put, htrie]
    exact hr.holds
  | @calcified t x curr ht hl =>
    exact (hr.hidden (by rw [ht]; simp) rfl hi (by simp) hr.holds (by rw [ht]; rfl)).advances rfl
  | spin ht hl => exact hr.advances rfl
  | @readElist t x curr did_acquire p i ht hb hlen =>
    obtain ⟨l', hr', hlost⟩ := hr.readElist (n := n) ht hb hi
    exact ⟨l', by simpa [answered] using hr', hlost⟩
  | @guard t x curr did_acquire ht hlong =>
    exact (hr.hidden (by rw [ht]; simp) rfl hi (by simp) hr.holds (by rw [ht]; rfl)).advances rfl
  | @writeElist t x curr e ret p i ht hb =>
    have hok := hr.inv.ok t
    rw [ht] at hok
    obtain ⟨hx, hn, hp⟩ := hok
    rw [hn] at hb
    cases hb
    have hbase := hr.inv.base (x := x) (t := t) (by rw [ht]; rfl)
    obtain ⟨hret, hwrite⟩ := hx.stands.holds_write hbase hr.holds hp
    have hnone := (congrArg Base.child hbase).trans child_elist
    have hafter := trie_setElist (e := e) hx.stands.onPath.linked hnone
    have hr' : Refines c (s.put (s.memory.setElist x.parent_ptr (bucketOf c x) e) t (.unlock x ret))
        (l ++ [⟨x.op, ret, false⟩]) h := by
      refine hr.commit (by rw [ht]; rfl) (by rw [ht]; simp) rfl hi (by simp) rfl hret ?_
      simp only [State.put]
      rw [show (s.memory.setElist x.parent_ptr (bucketOf c x) e).trie c = _ from hafter]
      exact hwrite
    refine ⟨_, by simpa [answered] using hr', fun _ hall y hy => ?_⟩
    rcases List.mem_append.mp hy with hy | hy
    · exact hall y hy
    · rw [List.mem_singleton.mp hy]
  | @changePointer t x new_p ht =>
    have hrole : (s.pc t).role c = .made x.parent_ptr (bucketOf c x) new_p := by rw [ht]; rfl
    obtain ⟨k, d, hleaf, -, hfresh, hre, htrie⟩ := hr.inv.locks.publish_trie hrole false
    refine (hr.hidden (by rw [ht]; simp) rfl hi (by simp) ?_ (by rw [ht]; rfl)).advances rfl
    simp only [State.put, htrie]
    exact hr.holds.expand hleaf hfresh hre
  | @permUnlock t x ht =>
    exact (hr.hidden (by rw [ht]; simp) rfl hi (by simp) hr.holds (by rw [ht]; rfl)).advances rfl
  | @unlock t x ret ht =>
    exact (hr.hidden (by rw [ht]; simp) rfl hi (by simp) hr.holds (by rw [ht]; rfl)).advances rfl
  | @allocate t new_p x curr p i ht hb hn =>
    refine (hr.hidden (by rw [ht]; simp) rfl hi (by simp) ?_ (by rw [ht]; rfl)).advances rfl
    simp only [State.put, trie_rehash hr.inv.locks.memory hn]
    exact hr.holds
  | @land j p i w hn =>
    have htrie : ((s.memory.drop j).setBucket p i ⟨(s.memory.plists p i).base, w⟩).trie c =
        s.memory.trie c := trie_land
    refine Refines.advances ⟨hi, hr.alone, fun {t x curr} ht => ?_, ?_, hr.answers, hr.finished⟩ rfl
    · exact (hr.current ht).trans (setBucket_base (m := s.memory.drop j) (b := ⟨_, w⟩) rfl _ _).symm
    · simp only [htrie]
      exact hr.holds
  | @finish t op ret ht =>
    have hothers := hr.others (t := t) (by rw [ht]; simp)
    have hl := (finished_iff hothers).mp hr.finished
    rw [ht] at hl
    have hdone : answered s (.finish t) = some (op, ret) := by simp [answered, ht]
    have hr' : Refines c (s.put s.memory t .idle) l (h ++ [(op, ret)]) :=
      Refines.to hothers rfl hi (by simp) hr.holds hr.answers (by simpa [Pc.answer] using hl)
    exact ⟨l, by simpa [hdone] using hr', fun _ hall => hall⟩

end Steps

/-! ### Runs -/

section Runs

variable (r : (machine c n : Machine (State A K V N T) (Act A K V T)).Run)

lemma refines_initial : Refines c (initial c n : State A K V N T) [] [] where
  inv := ⟨.initial, fun _ => trivial, fun hs => by cases hs⟩
  alone ht := absurd rfl ht
  current ht := by cases ht
  holds := by
    refine ⟨initial_inv.tree.placed, fun k v => iff_of_false (by simp [after]) ?_⟩
    rintro ⟨p, i, hm⟩
    rw [show (initial c n : State A K V N T).memory = .initial c from rfl, initial_items] at hm
    cases hm
  answers := trivial
  finished := .inl ⟨fun _ => rfl, rfl⟩

lemma refines_run (hone : ∀ i < r.len, Alone (r.state i) (r.act i))
    (hu : ∀ i < r.len, Unmixed c (r.state i)) {i : ℕ} (hi : i ≤ r.len) :
    ∃ l, Refines c (r.state i) l (answers r i) ∧
      ((∀ j < i, loses c n (r.state j) (r.act j) = false) → ∀ y ∈ l, y.lost = false) := by
  induction i with
  | zero =>
    rw [show r.state 0 = initial c n from r.start]
    exact ⟨[], refines_initial, fun _ y hy => by cases hy⟩
  | succ i ih =>
    obtain ⟨l, hr, hlost⟩ := ih (by omega)
    obtain ⟨l', hr', hlost'⟩ :=
      hr.step (hu i (by omega)) (hone i (by omega)) (step_cases (r.next i (by omega)))
    rw [← answers_succ] at hr'
    refine ⟨l', hr', fun hall => hlost' (hall i (by omega)) (hlost fun j hj => hall j (by omega))⟩

/-- Every call answers as the finite map does, where a call whose change is lost is a lookup. -/
theorem answers_actual (hone : ∀ i < r.len, Alone (r.state i) (r.act i))
    (hu : ∀ i < r.len, Unmixed c (r.state i)) (hend : ∀ t, (r.state r.len).pc t = .idle) :
    ∃ l : List (Effect K V), l.map Effect.call = answers r r.len ∧
      Answers (fun _ => none) (l.map Effect.actual) := by
  obtain ⟨l, hr, -⟩ := refines_run r hone hu le_rfl
  refine ⟨l, ?_, hr.answers⟩
  rcases hr.finished with ⟨-, hl⟩ | ⟨t, y, hy, -⟩
  · exact hl
  · rw [hend t] at hy
    cases hy

theorem answers_of_kept (hone : ∀ i < r.len, Alone (r.state i) (r.act i))
    (hu : ∀ i < r.len, Unmixed c (r.state i))
    (hkept : ∀ i < r.len, loses c n (r.state i) (r.act i) = false) :
    Answers (fun _ => none) (answers r r.len) := by
  obtain ⟨l, hr, hlost⟩ := refines_run r hone hu le_rfl
  have hactual : l.map Effect.actual = l.map Effect.call := by
    refine List.map_congr_left fun y hy => ?_
    simp [Effect.actual, Effect.call, hlost hkept y hy]
  have hans := hr.answers
  rw [hactual] at hans
  rcases hr.finished with ⟨-, hl⟩ | ⟨t, y, -, hl⟩
  · rwa [hl] at hans
  · rw [hl] at hans
    exact (answers_concat.mp hans).1

end Runs

/-- A call that changes nothing, at a bucket of the root. -/
def look (t : Bool) (op : MapOp (BitVec 64) ℕ) : List FourAct :=
  .call t op :: List.replicate 5 (.next t) ++ [.deliver 0, .finish t]

/-- The first client works on an EList of the second. -/
def remote : List FourAct :=
  put false 1 1 ++ look false (.insert 1 5) ++ look true (.contains 1) ++
    .call false (.remove 1) :: List.replicate 6 (.next false) ++ [.deliver 0, .finish false] ++
    look false (.contains 1)

/-- The second client works on its own. -/
def own : List FourAct := look true (.insert 1 7) ++ look true (.contains 1)

def remoteRun : (machine four fourNodes : Machine FourState FourAct).Run :=
  fourRun remote (by decide +kernel)

def ownRun : (machine four fourNodes : Machine FourState FourAct).Run :=
  fourRun own (by decide +kernel)

lemma hits_remote : ∀ i < remoteRun.len, ∀ t, hits four (remoteRun.state i) t ≠ some false := by
  decide +kernel

theorem answers_of_kept_remote : Answers (fun _ => none) (answers remoteRun remoteRun.len) ∧
    (answers remoteRun remoteRun.len).map Prod.snd = [none, some 0, some 0, some 0, none] :=
  ⟨answers_of_kept remoteRun (by decide +kernel) (fun i hi => unmixed_iff.mpr (hits_remote i hi))
    (by decide +kernel), by decide +kernel⟩

theorem not_answers_own : ¬ ∀ r : (machine four fourNodes : Machine FourState FourAct).Run,
    (∀ i < r.len, Alone (r.state i) (r.act i)) → Answers (fun _ => none) (answers r r.len) := by
  intro h
  have hown : answers ownRun ownRun.len = [(.insert 1 7, none), (.contains 1, none)] := by
    decide +kernel
  have hans := h ownRun (by decide +kernel)
  rw [hown] at hans
  exact absurd hans.2.1 (by simp [MapOp.apply, MapOp.key])

end ObjectCache.Iht.Tuned
