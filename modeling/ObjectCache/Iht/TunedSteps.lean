import ObjectCache.Iht.Tuned
import ObjectCache.Iht.RdmaMemory

/-! Every step of `TunedRdmaIHT`, by what it requires and what it does. -/

set_option linter.unusedSectionVars false

namespace ObjectCache.Iht.Tuned

open Lib Cache Rdma

variable {A K V N T : Type} [DecidableEq A] [DecidableEq K] [DecidableEq N] [DecidableEq T]

inductive Step (c : Config A K) (n : Nodes N T) (s : State A K V N T) :
    Act A K V T → State A K V N T → Prop
  | call {t op} : s.pc t = .idle → Step c n s (.call t op) (s.put s.memory t (.fetch (.start c op)))
  | hit {t x cache pc} : s.pc t = .fetch x → fetch_cache c (s.layers t) x.path = some cache →
      enter c x cache.buckets = some pc → Step c n s (.next t) (s.put s.memory t pc)
  | miss {t x} : s.pc t = .fetch x → fetch_cache c (s.layers t) x.path = none →
      Step c n s (.next t) (s.put s.memory t (.extendedRead x))
  | extendedRead {t x pc} : s.pc t = .extendedRead x →
      enter c x (s.memory.plists x.parent_ptr) = some pc →
      Step c n s (.next t) (State.put ⟨s.memory, s.owner, Function.update s.layers t
        (try_cache c (s.layers t) x.path (s.memory.plists x.parent_ptr)), s.pc⟩ s.memory t pc)
  | refetch {t x pc} : s.pc t = .refetch x →
      enter c x (s.memory.plists x.parent_ptr) = some pc → Step c n s (.next t) (s.put s.memory t pc)
  | acquire {t x curr} : s.pc t = .acquire x curr →
      (s.memory.plists x.parent_ptr (bucketOf c x)).lock = .e_unlocked →
      Step c n s (.next t) (s.put (s.memory.setBucket x.parent_ptr (bucketOf c x)
        ⟨(s.memory.plists x.parent_ptr (bucketOf c x)).base, .e_locked⟩) t (.readElist x curr true))
  | calcified {t x curr} : s.pc t = .acquire x curr →
      (s.memory.plists x.parent_ptr (bucketOf c x)).lock = .p_unlocked →
      Step c n s (.next t) (s.put s.memory t (.refetch x))
  | spin {t x curr} : s.pc t = .acquire x curr →
      (s.memory.plists x.parent_ptr (bucketOf c x)).lock = .e_locked → Step c n s (.next t) s
  | readElist {t x curr did_acquire p i} : s.pc t = .readElist x curr did_acquire →
      (curr (bucketOf c x)).base = .elist p i → (s.memory.elists p i).length ≤ c.elist_size + 1 →
      Step c n s (.next t) (s.put s.memory t
        (apply c (s.owner p = n.self t) x curr did_acquire (s.memory.elists p i)))
  | guard {t x curr did_acquire} : s.pc t = .readElist x curr did_acquire →
      (∀ p i, (curr (bucketOf c x)).base = .elist p i →
        c.elist_size + 1 < (s.memory.elists p i).length) →
      Step c n s (.next t) (s.put s.memory t (.acquire x curr))
  | writeElist {t x curr e ret p i} : s.pc t = .writeElist x curr e ret →
      (curr (bucketOf c x)).base = .elist p i →
      Step c n s (.next t) (s.put (s.memory.setElist p i e) t (.unlock x ret))
  | changePointer {t x new_p} : s.pc t = .changePointer x new_p →
      Step c n s (.next t) (s.put (s.memory.setBucket x.parent_ptr (bucketOf c x)
        ⟨.plist new_p false, (s.memory.plists x.parent_ptr (bucketOf c x)).lock⟩) t (.permUnlock x))
  | permUnlock {t x} : s.pc t = .permUnlock x →
      Step c n s (.next t) (s.put (s.memory.send x.parent_ptr (bucketOf c x) .p_unlocked) t (.refetch x))
  | unlock {t x ret} : s.pc t = .unlock x ret →
      Step c n s (.next t)
        (s.put (s.memory.send x.parent_ptr (bucketOf c x) .e_unlocked) t (.done x.op ret))
  | allocate {t new_p x curr p i} : s.pc t = .rehash x curr →
      (curr (bucketOf c x)).base = .elist p i → new_p ∉ s.memory.allocated →
      Step c n s (.allocate t new_p) (State.put ⟨s.memory,
          Function.update s.owner new_p (n.self t), s.layers, s.pc⟩
        (s.memory.rehash c x.count x.depth (s.memory.elists p i) new_p) t (.changePointer x new_p))
  | land {l p i w} : s.memory.in_flight[l]? = some (p, i, w) →
      Step c n s (.deliver l) ⟨(s.memory.drop l).setBucket p i ⟨(s.memory.plists p i).base, w⟩,
        s.owner, s.layers, s.pc⟩
  | finish {t op ret} : s.pc t = .done op ret → Step c n s (.finish t) (s.put s.memory t .idle)

inductive Entered (c : Config A K) (x : Context A K V) (curr : PList A) : Pc A K V → Prop
  | down {p marked} : (curr (bucketOf c x)).lock = .p_unlocked →
      (curr (bucketOf c x)).base = .plist p marked → Entered c x curr
        (.fetch ⟨x.op, p, x.path ++ [bucketOf c x], x.depth + 1, x.count * 2⟩)
  | read : (curr (bucketOf c x)).lock ≠ .p_unlocked → c.free x.op →
      Entered c x curr (.readElist x curr false)
  | lock : (curr (bucketOf c x)).lock ≠ .p_unlocked → Entered c x curr (.acquire x curr)

variable {c : Config A K} {n : Nodes N T} {s s' : State A K V N T} {t : T} {x : Context A K V}
  {curr : PList A} {pc : Pc A K V}

lemma entered_of_enter (h : enter c x curr = some pc) : Entered c x curr pc := by
  have hstop : ∀ l, (curr (bucketOf c x)).lock = l → l ≠ .p_unlocked →
      some (if c.free x.op then .readElist x curr false else .acquire x curr) = some pc →
      Entered c x curr pc := by
    intro l hl hne hpc
    cases hpc
    split_ifs with hf
    · exact .read (by rwa [hl]) hf
    · exact .lock (by rwa [hl])
  by_cases hd : 8 < x.depth
  · simp [enter, hd] at h
  simp only [enter, if_neg hd] at h
  cases hl : (curr (bucketOf c x)).lock with
  | e_locked =>
    simp only [hl] at h
    exact hstop _ hl (by simp) h
  | e_unlocked =>
    simp only [hl] at h
    exact hstop _ hl (by simp) h
  | p_unlocked =>
    cases hb : (curr (bucketOf c x)).base with
    | elist p i => simp [hl, hb] at h
    | plist p marked =>
      simp only [hl, hb, Option.some.injEq] at h
      subst h
      exact .down hl hb

lemma step_next (h : next c n s t = some s') : Step c n s (.next t) s' := by
  rw [next] at h
  cases ht : s.pc t with
  | idle => simp [ht] at h
  | fetch x =>
    simp only [ht] at h
    cases hc : fetch_cache c (s.layers t) x.path with
    | none =>
      simp only [hc, Option.some.injEq] at h
      subst h
      exact .miss ht hc
    | some cache =>
      simp only [hc, Option.map_eq_some_iff] at h
      obtain ⟨pc, he, rfl⟩ := h
      exact .hit ht hc he
  | extendedRead x =>
    simp only [ht, Option.map_eq_some_iff] at h
    obtain ⟨pc, he, rfl⟩ := h
    exact .extendedRead ht he
  | refetch x =>
    simp only [ht, Option.map_eq_some_iff] at h
    obtain ⟨pc, he, rfl⟩ := h
    exact .refetch ht he
  | acquire x curr =>
    simp only [ht] at h
    cases hl : (s.memory.plists x.parent_ptr (bucketOf c x)).lock with
    | e_locked =>
      simp only [hl, Option.some.injEq] at h
      subst h
      exact .spin ht hl
    | e_unlocked =>
      simp only [hl, Option.some.injEq] at h
      subst h
      exact .acquire ht hl
    | p_unlocked =>
      simp only [hl, Option.some.injEq] at h
      subst h
      exact .calcified ht hl
  | readElist x curr did_acquire =>
    simp only [ht] at h
    cases hb : (curr (bucketOf c x)).base with
    | elist p i =>
      simp only [hb] at h
      split_ifs at h with hlen
      · cases h
        refine .guard ht fun q j hq => ?_
        rw [hb] at hq
        cases hq
        exact hlen
      · cases h
        exact .readElist ht hb (by omega)
    | plist q marked =>
      simp only [hb, Option.some.injEq] at h
      subst h
      refine .guard ht fun p i hp => ?_
      rw [hb] at hp
      cases hp
  | writeElist x curr e ret =>
    simp only [ht] at h
    cases hb : (curr (bucketOf c x)).base with
    | elist p i =>
      simp only [hb, Option.some.injEq] at h
      subst h
      exact .writeElist ht hb
    | plist q marked => simp [hb] at h
  | rehash x curr => simp [ht] at h
  | changePointer x new_p =>
    simp only [ht, Option.some.injEq] at h
    subst h
    exact .changePointer ht
  | permUnlock x =>
    simp only [ht, Option.some.injEq] at h
    subst h
    exact .permUnlock ht
  | unlock x ret =>
    simp only [ht, Option.some.injEq] at h
    subst h
    exact .unlock ht
  | done op ret => simp [ht] at h

lemma step_cases {a : Act A K V T} (h : step c n s a = some s') : Step c n s a s' := by
  cases a with
  | call t op =>
    rw [step] at h
    cases ht : s.pc t with
    | idle =>
      simp only [ht, Option.some.injEq] at h
      subst h
      exact .call ht
    | _ => simp [ht] at h
  | next t => exact step_next h
  | allocate t new_p =>
    rw [step] at h
    cases ht : s.pc t with
    | rehash x curr =>
      simp only [ht] at h
      cases hb : (curr (bucketOf c x)).base with
      | elist p i =>
        simp only [hb] at h
        split_ifs at h with hn
        cases h
        exact .allocate ht hb hn
      | plist q marked => simp [hb] at h
    | _ => simp [ht] at h
  | deliver l =>
    rw [step] at h
    cases hl : s.memory.in_flight[l]? with
    | none => simp [hl] at h
    | some f =>
      obtain ⟨p, i, w⟩ := f
      simp only [hl, Option.some.injEq] at h
      subst h
      exact .land hl
  | finish t =>
    rw [step] at h
    cases ht : s.pc t with
    | done op ret =>
      simp only [ht, Option.some.injEq] at h
      subst h
      exact .finish ht
    | _ => simp [ht] at h

end ObjectCache.Iht.Tuned
