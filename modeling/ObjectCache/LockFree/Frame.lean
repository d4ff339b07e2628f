import ObjectCache.LockFree.Calls

/-! What a step leaves to the calls that do not take it, and to the call that takes it where it links
and marks nothing. -/

set_option linter.unusedSectionVars false

namespace ObjectCache.LockFree

open Lib StateTransition

variable {A V T : Type} [DecidableEq A] [DecidableEq T] {c : Config A} {r : Trace c V T} {t : T} {i : ℕ}
  {l : Vars A V} {a n q : A} {level : ℕ} {lb ub : ℤ}

/-- What every step does to the memory. -/
structure Carries (r : Trace c V T) (i : ℕ) : Prop where
  before : Shape c (r.linked i) (r.memory i)
  after : Shape c (r.linked (i + 1)) (r.memory (i + 1))
  node : ∀ n ∈ (r.memory i).allocated, (r.memory (i + 1)).node n = (r.memory i).node n
  allocated : (r.memory i).allocated ⊆ (r.memory (i + 1)).allocated
  frozen : ∀ n ∈ r.linked i, ∀ level, ((r.memory i).next n level).marked →
    (r.memory (i + 1)).next n level = (r.memory i).next n level
  kept : ∀ n ∈ r.linked i, ∀ q, (r.memory (i + 1)).next n 0 = ⟨q, true⟩ →
    ((r.memory i).next n 0).node = q
  marked : ∀ n ∈ r.linked i, ((r.memory (i + 1)).next n 0).marked →
    ((r.memory i).next n 0).marked ∨ marks (r.state i) (r.act i) = some n

/-- A step during the call of `t` that links and marks nothing for it. -/
structure Frame (r : Trace c V T) (t : T) (i : ℕ) : Prop extends Carries r i where
  opens : ¬ opens t (r.act i)
  links : (r.act i).thread = t → links (r.state i) (r.act i) = none
  marks : (r.act i).thread = t → LockFree.marks (r.state i) (r.act i) = none

lemma linked_mono : r.linked i ⊆ r.linked (i + 1) := Set.subset_union_right

lemma Carries.same (h : Carries r i) (hn : n ∈ r.linked i) :
    (r.memory (i + 1)).node n = (r.memory i).node n :=
  h.node n (h.before.allocated hn)

lemma Carries.target (h : Carries r i) (ht : Target c (r.linked i) (r.memory i) level q) :
    Target c (r.linked (i + 1)) (r.memory (i + 1)) level q :=
  ht.mono linked_mono (h.same ht.linked)

lemma Carries.word (h : Carries r i) (hn : n ∈ r.linked i) {s : Option A}
    (hw : (r.memory i).next n level = ⟨s, true⟩) : (r.memory (i + 1)).next n level = ⟨s, true⟩ := by
  rw [h.frozen n hn level (by rw [hw]), hw]

section Carries

variable (h : Carries r i)

include h

lemma Arrays.frame (ha : Arrays r i l level) : Arrays r (i + 1) l level where
  pred k hk hm := by
    obtain ⟨hlinked, htop⟩ := ha.pred k hk hm
    exact ⟨linked_mono hlinked, by rwa [h.same hlinked]⟩
  succ k hk hm := h.target (ha.succ k hk hm)

lemma Gap.frame (hg : Gap r i l) : Gap r (i + 1) l where
  arrays := hg.arrays.frame h
  low := by
    rw [h.same (hg.arrays.pred 0 le_rfl (by decide)).1]
    exact hg.low
  high := by
    rw [h.same (hg.arrays.succ 0 le_rfl (by decide)).linked]
    exact hg.high

lemma Describes.frame (hd : Describes r i l n) (hn : n ∈ (r.memory i).allocated) :
    Describes r (i + 1) l n := by
  refine ⟨?_, ?_⟩
  · rw [h.node n hn]
    exact hd.op
  · rw [h.node n hn]
    exact hd.top

lemma MarkedAbove.frame (hm : MarkedAbove r i n level) (hn : n ∈ r.linked i) :
    MarkedAbove r (i + 1) n level := by
  intro k hk htop
  rw [h.same hn] at htop
  rw [h.frozen n hn k (hm k hk htop)]
  exact hm k hk htop

end Carries

section Frame

variable (h : Frame r t i)

include h

lemma NoLink.frame (hn : NoLink r t i) : NoLink r t (i + 1) := by
  rw [NoLink, Trace.Did, Machine.Run.did_succ_iff h.opens]
  rintro (hd | ⟨hthread, hne⟩)
  · exact hn hd
  · exact hne (h.links hthread)

lemma NoMark.frame (hn : NoMark r t i) : NoMark r t (i + 1) := by
  rw [NoMark, Trace.Did, Machine.Run.did_succ_iff h.opens]
  rintro (hd | ⟨hthread, hne⟩)
  · exact hn hd
  · exact hne (h.marks hthread)

lemma HasLinked.frame {op : Op V} (hl : HasLinked r t i op) : HasLinked r t (i + 1) op :=
  ⟨Machine.Run.Once.succ hl.1 h.opens fun hat => hat.2 (h.links hat.1),
    Machine.Run.Did.succ hl.2 h.opens⟩

lemma HasMarked.frame {op : Op V} {value : Option V} (hm : HasMarked r t i op value) :
    HasMarked r t (i + 1) op value :=
  ⟨Machine.Run.Once.succ hm.1 h.opens fun hat => hat.2 (h.marks hat.1),
    Machine.Run.Did.succ hm.2 h.opens⟩

lemma Passed.frame (hp : Passed r t i a q) (ha : a ∈ r.linked i) (hq : q ∈ r.linked i) :
    Passed r t (i + 1) a q := by
  rw [Passed, h.same ha, h.same hq]
  exact Machine.Run.During.succ hp h.opens

end Frame

/-- A live node reaches, right now, up to where its pointer leads. -/
lemma Passed.now (h : Shape c (r.linked i) (r.memory i)) (hl : Live c (r.memory i) a)
    (hq : (r.memory i).bottom a = some q) : Passed r t i a q :=
  Machine.Run.During.now fun _ _ hlow hhigh => h.clear hl.reach hq hlow hhigh

lemma Recent.now (h : Shape c (r.linked i) (r.memory i)) (hl : Live c (r.memory i) a) :
    Recent r t i a := by
  intro q b hw
  exact Passed.now h hl (by rw [Memory.bottom, hw])

lemma Recent.frame (h : Frame r t i) (hr : Recent r t i a) (ha : a ∈ r.linked i) :
    Recent r t (i + 1) a := by
  intro q b hw
  have hlinked : a ∈ r.linked (i + 1) := linked_mono ha
  cases b with
  | false =>
    refine Passed.now h.after (h.after.live hlinked (by rw [hw])) ?_
    rw [Memory.bottom, hw]
  | true =>
    have hnode := h.kept a ha _ hw
    have hold : (r.memory i).next a 0 = ⟨some q, ((r.memory i).next a 0).marked⟩ := by rw [← hnode]
    have hq := (h.before.target ha hnode).linked
    exact Passed.frame h (hr q _ hold) ha hq

section Frame

variable (h : Frame r t i)

include h

lemma New.frame (hw : New r t i l n) (hnext : (r.memory (i + 1)).next n = (r.memory i).next n)
    (hn : n ∉ r.linked (i + 1)) : New r t (i + 1) l n where
  toDescribes := hw.toDescribes.frame h.toCarries hw.own.allocated
  own :=
    { not_linked := hn
      allocated := h.allocated hw.own.allocated
      unmarked k := by rw [hnext]; exact hw.own.unmarked k
      target hq := h.target (hw.own.target (by rwa [hnext] at hq)) }
  no_link := hw.no_link.frame h

lemma Inserted.frame (hi : Inserted r t i l n) : Inserted r t (i + 1) l n := by
  have hn : n ∈ r.linked i := (hi.target 0 (Nat.zero_le _)).linked
  refine ⟨hi.toDescribes.frame h.toCarries (h.before.allocated hn), fun k hk => ?_, hi.did.frame h⟩
  rw [h.same hn] at hk
  exact h.target (hi.target k hk)

lemma Victim.frame (hv : Victim r t i l n) : Victim r t (i + 1) l n where
  op := hv.op
  succ := hv.succ
  linked := linked_mono hv.linked
  not_head := hv.not_head
  not_tail := hv.not_tail
  equal := by
    rw [h.same hv.linked]
    exact hv.equal
  no_mark := hv.no_mark.frame h
  lost hm := by
    rcases h.marked n hv.linked hm with hm | hm
    · exact Machine.Run.Did.succ (hv.lost hm) h.opens
    · refine Machine.Run.Did.step ⟨fun ht => ?_, n, hm, hv.equal⟩ h.opens
      rw [h.marks ht] at hm
      cases hm

lemma Site.Ok.frame {site : Site A} (hs : site.Ok r t i l)
    (hown : ∀ newNode, site = .insert newNode →
      (r.memory (i + 1)).next newNode = (r.memory i).next newNode ∧ newNode ∉ r.linked (i + 1)) :
    site.Ok r t (i + 1) l := by
  cases site with
  | find => exact hs
  | insert newNode =>
    obtain ⟨hnext, hn⟩ := hown newNode rfl
    exact New.frame h hs hnext hn
  | link newNode level =>
    obtain ⟨hi, hone, htop⟩ := hs
    refine ⟨hi.frame h, hone, ?_⟩
    rwa [h.same (hi.target 0 (Nat.zero_le _)).linked]
  | remove => exact ⟨hs.1, hs.2.frame h⟩
  | unlink nodeToRemove =>
    obtain ⟨hop, hn, hm⟩ := hs
    exact ⟨hop, linked_mono hn, by rw [h.same hn]; exact hm.frame h⟩

lemma Searches.frame {site : Site A} {pred : A} (hs : Searches r t i l site level pred)
    (hown : ∀ newNode, site = .insert newNode →
      (r.memory (i + 1)).next newNode = (r.memory i).next newNode ∧ newNode ∉ r.linked (i + 1)) :
    Searches r t (i + 1) l site level pred where
  site := hs.site.frame h hown
  linked := linked_mono hs.linked
  high := by
    rw [h.same hs.linked]
    exact hs.high
  top := by
    rw [h.same hs.linked]
    exact hs.top
  max := hs.max
  arrays := hs.arrays.frame h.toCarries
  recent := hs.recent.frame h hs.linked

lemma Answer.frame {op : Op V} {ret : Ret V} (ha : Answer r t i op ret) :
    Answer r t (i + 1) op ret := by
  cases op with
  | find lb ub =>
    exact ha.imp (And.imp_right fun ho => Machine.Run.During.succ ho h.opens)
      (And.imp_right fun hc => Machine.Run.During.succ hc h.opens)
  | insert lb ub x =>
    rcases ha with ⟨hret, hl⟩ | ⟨hret, hno, ho⟩
    · exact .inl ⟨hret, hl.frame h⟩
    · exact .inr ⟨hret, hno.frame h, Machine.Run.During.succ ho h.opens⟩
  | remove lb ub =>
    rcases ha with ⟨value, hret, hm⟩ | ⟨hret, hno, hwhy⟩
    · exact .inl ⟨value, hret, hm.frame h⟩
    · refine .inr ⟨hret, hno.frame h, ?_⟩
      rcases hwhy with hc | hl
      · exact .inl (Machine.Run.During.succ hc h.opens)
      · exact .inr (Machine.Run.Did.succ hl h.opens)

/-- What the thread knows is still true after a step that leaves its own node alone. -/
lemma PcOk.frame {pc : Pc A V} (hpc : PcOk r t i l pc)
    (hown : ∀ n, pc.owns = some n →
      (r.memory (i + 1)).next n = (r.memory i).next n ∧ n ∉ r.linked (i + 1)) :
    PcOk r t (i + 1) l pc := by
  have hsite : ∀ {site : Site A} {level pred}, Searches r t i l site level pred →
      (∀ n, site = .insert n → pc.owns = some n) → Searches r t (i + 1) l site level pred :=
    fun hs ho => hs.frame h fun n hn => hown n (ho n hn)
  cases pc with
  | idle => trivial
  | allocate => exact ⟨hpc.1, hpc.2.frame h⟩
  | load site level pred => exact hsite hpc (by rintro n rfl; rfl)
  | next site level pred curr =>
    obtain ⟨hs, hcurr, hp⟩ := hpc
    exact ⟨hsite hs (by rintro n rfl; rfl), h.target hcurr,
      fun hz => (hp hz).frame h hs.linked hcurr.linked⟩
  | snip site level pred curr succ =>
    obtain ⟨hs, hcurr, hw⟩ := hpc
    exact ⟨hsite hs (by rintro n rfl; rfl), h.target hcurr, h.word hcurr.linked hw⟩
  | store newNode level =>
    obtain ⟨hn, hg, hle, hw⟩ := hpc
    obtain ⟨hnext, hnew⟩ := hown newNode rfl
    refine ⟨hn.frame h hnext hnew, hg.frame h.toCarries, ?_, ?_⟩
    · rwa [h.node _ hn.own.allocated]
    · rwa [hnext]
  | linkBottom newNode =>
    obtain ⟨hn, hg, hw⟩ := hpc
    obtain ⟨hnext, hnew⟩ := hown newNode rfl
    refine ⟨hn.frame h hnext hnew, hg.frame h.toCarries, ?_⟩
    rwa [hnext, h.node _ hn.own.allocated]
  | link newNode level =>
    obtain ⟨⟨hi, hone, htop⟩, ha⟩ := hpc
    refine ⟨⟨hi.frame h, hone, ?_⟩, ha.frame h.toCarries⟩
    rwa [h.same (hi.target 0 (Nat.zero_le _)).linked]
  | read n level =>
    obtain ⟨hv, hone, hm⟩ := hpc
    exact ⟨hv.frame h, hone, hm.frame h.toCarries hv.linked⟩
  | mark n level succ =>
    obtain ⟨hv, hone, hm⟩ := hpc
    exact ⟨hv.frame h, hone, hm.frame h.toCarries hv.linked⟩
  | readBottom n => exact ⟨hpc.1.frame h, hpc.2.frame h.toCarries hpc.1.linked⟩
  | markBottom n succ => exact ⟨hpc.1.frame h, hpc.2.frame h.toCarries hpc.1.linked⟩
  | check n iMarkedIt =>
    cases iMarkedIt with
    | false => exact ⟨hpc.1.frame h, hpc.2.frame h.toCarries hpc.1.linked⟩
    | true =>
      have hs : (Site.unlink n).Ok r t i l := hpc
      exact hs.frame h fun m hm => by cases hm
  | done ret => exact Answer.frame h hpc

end Frame

end ObjectCache.LockFree
