import ObjectCache.Iht.RdmaMemory

/-! Every step of `RdmaIHT`, by what it requires and what it does. -/

set_option linter.unusedSectionVars false

namespace ObjectCache.Iht.Rdma

open Lib Cache

variable {A K V T : Type} [DecidableEq A] [DecidableEq K] [DecidableEq T]

/-- What the descent does with a new copy. -/
inductive Descent (c : Config A K) (x : Cursor A K V) (curr : PList A) : Pc A K V → Prop
  | down {p marked} : (curr (c.bucket x)).lock = .p_unlocked →
      (curr (c.bucket x)).base = .plist p marked →
      Descent c x curr (.extendedRead ⟨x.op, p, marked, x.depth + 1, x.count * 2⟩)
  | lookup : (curr (c.bucket x)).lock ≠ .p_unlocked → c.free x.op → Descent c x curr (.readElist x curr)
  | lock : (curr (c.bucket x)).lock ≠ .p_unlocked → c.free x.op = false →
      Descent c x curr (.acquire x curr)

/-- Every step, with what it requires. -/
inductive Step (c : Config A K) (s : State A K V T) : Act A K V T → State A K V T → Prop
  | call {t op} : s.pc t = .idle → Step c s (.call t op) (s.put s.memory t (.extendedRead (.start c op)))
  | read {t age x curr pc} : s.pc t = .extendedRead x →
      (s.memory.history x.parent_ptr)[age]? = some curr → Descent c x curr pc →
      Step c s (.read t age) (s.put s.memory t pc)
  | acquire {t x curr} : s.pc t = .acquire x curr →
      (s.memory.plists x.parent_ptr (c.bucket x)).lock = .e_unlocked →
      Step c s (.next t) (s.put (s.memory.setBucket x.parent_ptr (c.bucket x)
        ⟨(s.memory.plists x.parent_ptr (c.bucket x)).base, .e_locked⟩) t (.readElist x curr))
  | calcified {t x curr} : s.pc t = .acquire x curr →
      (s.memory.plists x.parent_ptr (c.bucket x)).lock = .p_unlocked →
      Step c s (.next t) (s.put s.memory t (.extendedRead x))
  | spin {t x curr} : s.pc t = .acquire x curr →
      (s.memory.plists x.parent_ptr (c.bucket x)).lock = .e_locked → Step c s (.next t) s
  | readElist {t x curr p i} : s.pc t = .readElist x curr → (curr (c.bucket x)).base = .elist p i →
      Step c s (.next t) (s.put s.memory t (withElist c x curr (s.memory.elists p i)))
  | writeElist {t x curr e ret p i} : s.pc t = .writeElist x curr e ret →
      (curr (c.bucket x)).base = .elist p i →
      Step c s (.next t) (s.put (s.memory.setElist p i e) t (.unlock x ret))
  | changePointer {t x new_p} : s.pc t = .changePointer x new_p →
      Step c s (.next t) (s.put (s.memory.setBucket x.parent_ptr (c.bucket x)
        ⟨.plist new_p (decide (x.depth < c.cache_depth)),
          (s.memory.plists x.parent_ptr (c.bucket x)).lock⟩) t (.permUnlock x))
  | permUnlock {t x} : s.pc t = .permUnlock x →
      Step c s (.next t) (s.put (s.memory.send x.parent_ptr (c.bucket x) .p_unlocked) t (.invalidate x))
  | invalidate {t x} : s.pc t = .invalidate x →
      Step c s (.next t) (s.put s.memory t (.extendedRead x))
  | unlock {t x ret} : s.pc t = .unlock x ret →
      Step c s (.next t)
        (s.put (s.memory.send x.parent_ptr (c.bucket x) .e_unlocked) t (.done x.op ret))
  | allocate {t new_p x curr p i} : s.pc t = .rehash x curr →
      (curr (c.bucket x)).base = .elist p i → new_p ∉ s.memory.allocated →
      Step c s (.allocate t new_p)
        (s.put (s.memory.rehash c x.count x.depth (s.memory.elists p i) new_p) t
          (.changePointer x new_p))
  | misread {t ret x curr q marked} : s.pc t = .readElist x curr →
      (curr (c.bucket x)).base = .plist q marked → c.free x.op →
      Step c s (.misread t ret) (s.put s.memory t (.done x.op ret))
  | land {n p i w} : s.memory.in_flight[n]? = some (p, i, w) →
      Step c s (.deliver n)
        ⟨(s.memory.drop n).setBucket p i ⟨(s.memory.plists p i).base, w⟩, s.pc⟩
  | finish {t op ret} : s.pc t = .done op ret → Step c s (.finish t) (s.put s.memory t .idle)

variable {c : Config A K} {s s' : State A K V T} {t : T} {x : Cursor A K V} {curr : PList A}
  {pc : Pc A K V}

lemma descent_of_descend (h : descend c x curr = some pc) : Descent c x curr pc := by
  have hstop : ∀ l, (curr (c.bucket x)).lock = l → l ≠ .p_unlocked →
      some (if c.free x.op then .readElist x curr else .acquire x curr) = some pc →
      Descent c x curr pc := by
    intro l hl hne hpc
    cases hpc
    split_ifs with hf
    · exact .lookup (by rwa [hl]) hf
    · exact .lock (by rwa [hl]) (by simpa using hf)
  rw [descend] at h
  cases hl : (curr (c.bucket x)).lock with
  | e_locked =>
    rw [hl] at h
    exact hstop _ hl (by simp) h
  | e_unlocked =>
    rw [hl] at h
    exact hstop _ hl (by simp) h
  | p_unlocked =>
    cases hb : (curr (c.bucket x)).base with
    | elist p i =>
      rw [hl, hb] at h
      cases h
    | plist p marked =>
      rw [hl, hb] at h
      cases h
      exact .down hl hb

lemma step_next (h : next c s t = some s') : Step c s (.next t) s' := by
  rw [next] at h
  cases ht : s.pc t with
  | idle => simp [ht] at h
  | extendedRead x => simp [ht] at h
  | acquire x curr =>
    simp only [ht] at h
    cases hl : (s.memory.plists x.parent_ptr (c.bucket x)).lock with
    | e_locked =>
      simp only [hl, Option.some.injEq] at h
      subst h
      exact .spin ht hl
    | e_unlocked =>
      simp only [hl, Option.some.injEq] at h
      subst h
      exact .acquire ht hl
    | p_unlocked =>
      simp only [hl, Option.some.injEq] at h
      subst h
      exact .calcified ht hl
  | readElist x curr =>
    simp only [ht] at h
    cases hb : (curr (c.bucket x)).base with
    | elist p i =>
      simp only [hb, Option.some.injEq] at h
      subst h
      exact .readElist ht hb
    | plist q marked => simp [hb] at h
  | writeElist x curr e ret =>
    simp only [ht] at h
    cases hb : (curr (c.bucket x)).base with
    | elist p i =>
      simp only [hb, Option.some.injEq] at h
      subst h
      exact .writeElist ht hb
    | plist q marked => simp [hb] at h
  | rehash x curr => simp [ht] at h
  | changePointer x new_p =>
    simp only [ht, Option.some.injEq] at h
    subst h
    exact .changePointer ht
  | permUnlock x =>
    simp only [ht, Option.some.injEq] at h
    subst h
    exact .permUnlock ht
  | invalidate x =>
    simp only [ht, Option.some.injEq] at h
    subst h
    exact .invalidate ht
  | unlock x ret =>
    simp only [ht, Option.some.injEq] at h
    subst h
    exact .unlock ht
  | done op ret => simp [ht] at h

lemma step_cases {a : Act A K V T} (h : step c s a = some s') : Step c s a s' := by
  cases a with
  | call t op =>
    rw [step] at h
    cases ht : s.pc t with
    | idle =>
      simp only [ht, Option.some.injEq] at h
      subst h
      exact .call ht
    | _ => simp [ht] at h
  | read t age =>
    rw [step] at h
    cases ht : s.pc t with
    | extendedRead x =>
      simp only [ht, Option.map_eq_some_iff, Option.bind_eq_some_iff] at h
      obtain ⟨pc, ⟨curr, hc, hd⟩, rfl⟩ := h
      exact .read ht hc (descent_of_descend hd)
    | _ => simp [ht] at h
  | next t => exact step_next h
  | allocate t new_p =>
    rw [step] at h
    cases ht : s.pc t with
    | rehash x curr =>
      simp only [ht] at h
      cases hb : (curr (c.bucket x)).base with
      | elist p i =>
        simp only [hb] at h
        split_ifs at h with hn
        simp only [Option.some.injEq] at h
        subst h
        exact .allocate ht hb hn
      | plist q marked => simp [hb] at h
    | _ => simp [ht] at h
  | misread t ret =>
    rw [step] at h
    cases ht : s.pc t with
    | readElist x curr =>
      simp only [ht] at h
      cases hb : (curr (c.bucket x)).base with
      | elist p i => simp [hb] at h
      | plist q marked =>
        simp only [hb] at h
        split_ifs at h with hf
        simp only [Option.some.injEq] at h
        subst h
        exact .misread ht hb hf
    | _ => simp [ht] at h
  | deliver n =>
    rw [step] at h
    cases hn : s.memory.in_flight[n]? with
    | none => simp [hn] at h
    | some f =>
      obtain ⟨p, i, w⟩ := f
      simp only [hn, Option.some.injEq] at h
      subst h
      exact .land hn
  | finish t =>
    rw [step] at h
    cases ht : s.pc t with
    | done op ret =>
      simp only [ht, Option.some.injEq] at h
      subst h
      exact .finish ht
    | _ => simp [ht] at h

end ObjectCache.Iht.Rdma
