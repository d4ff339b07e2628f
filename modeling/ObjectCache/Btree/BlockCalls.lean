import ObjectCache.Btree.TornReads
import ObjectCache.Lib.Linearizable

/-! A block under any number of clients is one content with a version: a read returns all of it, and an update
applies to the content that its client has read. -/

set_option linter.unusedSectionVars false

namespace ObjectCache.Btree

open Lib

variable {Y : Layout} {C : Type} [DecidableEq C] {degree : ℕ}

/-! ### The object -/

/-- The data of the lines that are stored. -/
abbrev Layout.Content (Y : Layout) := (l : {l // l ∈ Y.lines}) → Y.D l

def Layout.content (b : Y.Block) : Y.Content := fun l => (b l).data

inductive BlockOp (Y : Layout) where
  | read
  | update (version : ℕ) (data : Y.Content)

inductive BlockRet (Y : Layout) where
  | content (version : ℕ) (data : Y.Content)
  | updated (b : Bool)

/-- An update from another version than the current one does nothing. -/
def versioned (data : Y.Content) : Object (ℕ × Y.Content) (BlockOp Y) (BlockRet Y) where
  init := (0, data)
  apply
    | s, .read => (s, .content s.1 s.2)
    | s, .update version data =>
      if s.1 = version then ((version + 1, data), .updated true) else (s, .updated false)

/-- A read is a call from its first line to the end of the loop of `reliable_read`, a write from its first line to
its last. -/
def observe (degree : ℕ) (s : State Y C) : Act Y C → Option (Event C (BlockOp Y) (BlockRet Y))
  | .read c _ _ => some (.call c .read)
  | .check c =>
    match s.pc c with
    | .reading behavior [] copy =>
      if Layout.accepts degree copy behavior then
        some (.ret c (.content (copy Y.first).stamp (Layout.content copy)))
      else none
    | _ => none
  | .write c data =>
    match s.pc c with
    | .locked copy => some (.call c (.update (copy Y.first).stamp fun l : {l // l ∈ Y.lines} => data l))
    | _ => none
  | .store c l =>
    match s.pc c with
    | .storing _ left => if left.filter (· ≠ l) = [] then some (.ret c (.updated true)) else none
    | _ => none
  | .fetch _ _ | .acquire _ | .release _ => none

/-! ### The simulation -/

/-- The last version that is stored on all lines. -/
structure Current (s : State Y C) (version : ℕ) (data : Y.Content) : Prop where
  reached : ∀ l ∈ Y.lines, version ≤ (s.node l).stamp
  behind : ∃ l ∈ Y.lines, (s.node l).stamp = version
  image : ∃ image, s.images[version]? = some image ∧ Layout.content image = data

/-- A read takes effect with its last line, if its copy will be accepted; a write with its last line. -/
def Pc.status (degree : ℕ) : Pc Y → Status (BlockOp Y) (BlockRet Y)
  | .idle | .returned _ | .locked _ => .idle
  | .reading behavior left copy =>
    if left = [] ∧ Layout.accepts degree copy behavior = true then
      .done (.content (copy Y.first).stamp (Layout.content copy))
    else .called .read
  | .storing image _ => .called (.update ((image Y.first).version.toNat - 1) (Layout.content image))

/-- Only the lines of the block are fetched. -/
def Pc.Listed : Pc Y → Prop
  | .reading _ left _ => left ⊆ Y.lines
  | _ => True

structure Refines (degree : ℕ) (s : State Y C) (a : Atomic (ℕ × Y.Content) C (BlockOp Y) (BlockRet Y)) : Prop where
  inv : Inv s
  current : Current s a.state.1 a.state.2
  listed : ∀ c, (s.pc c).Listed
  status : ∀ c, a.status c = (s.pc c).status degree

variable {s s' : State Y C} {a : Atomic (ℕ × Y.Content) C (BlockOp Y) (BlockRet Y)} {c : C} {pc : Pc Y}
  {version : ℕ} {data : Y.Content} {copy image : Y.Block} {left : List Y.L} {behavior : ReadBehavior}

lemma Current.of_eq (h : Current s version data) (hnode : ∀ l ∈ Y.lines, (s'.node l).stamp = (s.node l).stamp)
    (himages : ∀ (k : ℕ) image, s.images[k]? = some image → s'.images[k]? = some image) :
    Current s' version data := by
  obtain ⟨hreached, ⟨l, hl, hstamp⟩, image, himage, hdata⟩ := h
  refine ⟨fun l hl => ?_, ⟨l, hl, (hnode l hl).trans hstamp⟩, image, himages _ _ himage, hdata⟩
  rw [hnode l hl]
  exact hreached l hl

/-- One client goes on and its status with it. -/
lemma Refines.move (h : Refines degree s a) (hinv : Inv s') (hpc : s'.pc = Function.update s.pc c pc)
    (hlisted : pc.Listed) (hcurrent : Current s' a.state.1 a.state.2) :
    Refines degree s' (a.setStatus c (pc.status degree)) where
  inv := hinv
  current := hcurrent
  listed c' := by
    rw [hpc]
    by_cases hc : c' = c
    · subst hc
      rwa [Function.update_self]
    · rw [Function.update_of_ne hc]
      exact h.listed c'
  status c' := by
    rw [hpc]
    by_cases hc : c' = c
    · subst hc
      rw [Atomic.setStatus_self, Function.update_self]
    · rw [Atomic.setStatus_other hc, Function.update_of_ne hc]
      exact h.status c'

lemma Refines.stay (h : Refines degree s a) (hinv : Inv s') (hpc : s'.pc = Function.update s.pc c pc)
    (hlisted : pc.Listed) (hcurrent : Current s' a.state.1 a.state.2)
    (hstatus : pc.status degree = (s.pc c).status degree) : Refines degree s' a := by
  have hsame : a.setStatus c (pc.status degree) = a := by
    rw [hstatus, ← h.status c, Atomic.setStatus, Function.update_eq_self]
  rw [← hsame]
  exact h.move hinv hpc hlisted hcurrent

@[simp]
lemma State.setPc_self : (s.setPc c pc).pc c = pc := Function.update_self ..

lemma State.setPc_other {c' : C} (hc : c' ≠ c) : (s.setPc c pc).pc c' = s.pc c' := Function.update_of_ne hc ..

lemma lines_ne_nil : Y.lines ≠ [] := List.ne_nil_of_mem Y.first_mem

lemma status_reading (h : left ≠ []) : (.reading behavior left copy : Pc Y).status degree = .called .read :=
  if_neg fun hd => h hd.1

/-- A copy whose last line has just been fetched shows the current version. -/
lemma Current.whole (h : Current s version data) (hw : Whole s copy) {l : Y.L} (hl : l ∈ Y.lines)
    (hlast : (copy l).stamp = (s.node l).stamp) :
    (copy Y.first).stamp = version ∧ Layout.content copy = data := by
  obtain ⟨hreached, ⟨m, hm, hbehind⟩, image, himage, rfl⟩ := h
  have hversion : (copy Y.first).stamp = version := by
    have hlow := hreached l hl
    have hhigh := (hw.fetched m hm).2
    have hsame := hw.same l hl
    have hsame' := hw.same m hm
    omega
  refine ⟨hversion, funext fun n => ?_⟩
  obtain ⟨⟨image', himage', hdata, -⟩, -⟩ := hw.fetched n n.2
  rw [hw.same n n.2, hversion, himage, Option.some.injEq] at himage'
  subst himage'
  exact hdata

lemma setWord_current (h : Current s version data) {word : BitVec 64}
    (hw : unlocked word = unlocked (s.node Y.first).version) :
    Current ({ s with node := Layout.setWord s.node word }.setPc c pc) version data :=
  h.of_eq (fun l _ => setWord_stamp hw l) fun _ _ hk => hk

lemma content_nextImage (copy : Y.Block) (data : (l : Y.L) → Y.D l) :
    Layout.content (nextImage copy data) = fun l : {l // l ∈ Y.lines} => data l := by
  funext l
  simp only [Layout.content, nextImage, Layout.increment]
  split_ifs <;> rfl

lemma content_setWord (b : Y.Block) (word : BitVec 64) :
    Layout.content (Layout.setWord b word) = Layout.content b := by
  funext ⟨l, _⟩
  simp only [Layout.content]
  by_cases hl : l = Y.first
  · subst hl
    rw [Layout.setWord, Function.update_self]
  · rw [Layout.setWord, Function.update_of_ne hl]

/-- While a client stores a new version the current one is that of the lines it has still to store. -/
lemma Current.storing (h : Current s version data) (hok : (.storing image left : Pc Y).Ok s) :
    version + 2 = s.images.length := by
  obtain ⟨hne, hsub, -, hlate, hdone⟩ := hok
  obtain ⟨l, hl⟩ := List.exists_mem_of_ne_nil left hne
  obtain ⟨hreached, ⟨m, hm, hbehind⟩, -⟩ := h
  have hlow := hreached l (hsub hl)
  have hl' := hlate l hl
  by_cases hml : m ∈ left
  · have hm' := hlate m hml
    omega
  · have hm' := hdone m hm hml
    omega

/-- The image that is being stored is of the version after the current one. -/
lemma Inv.storing (h : Inv s) (hc : Current s version data) (hpc : s.pc c = .storing image left) :
    s.images[version + 1]? = some image ∧ ∀ l ∈ Y.lines, (image l).version.toNat = version + 1 ∧
      (image l).stamp = version + 1 := by
  have hok := h.pc c
  rw [hpc] at hok
  have hlength := hc.storing hok
  have hfew := h.few
  obtain ⟨-, -, hlast, -, -⟩ := hok
  have himage : s.images[version + 1]? = some image := by
    rw [← hlast, List.getLast?_eq_getElem?]
    congr 1
    omega
  refine ⟨himage, fun l hl => ?_⟩
  have hversion := h.numbered _ _ himage l hl
  refine ⟨hversion, ?_⟩
  rw [stamp_eq (by omega), hversion]

section Steps

variable {d₀ : Y.Content} {hist : History C (BlockOp Y) (BlockRet Y)}

lemma Refines.fetch (h : Refines degree s a) (hrun : Atomic.Run (versioned d₀) hist a) {l : Y.L}
    (hpc : s.pc c = .reading behavior left copy) (hl : l ∈ left)
    (hinv : Inv (s.setPc c (.reading behavior (left.filter (· ≠ l)) (Function.update copy l (s.node l))))) :
    ∃ a', Atomic.Run (versioned d₀) hist a' ∧ Refines degree
      (s.setPc c (.reading behavior (left.filter (· ≠ l)) (Function.update copy l (s.node l)))) a' := by
  have hsub := h.listed c
  rw [hpc] at hsub
  have hsub' : left.filter (· ≠ l) ⊆ Y.lines := fun m hm => hsub (List.mem_filter.mp hm).1
  generalize hcopy' : Function.update copy l (s.node l) = copy' at hinv ⊢
  generalize left.filter (· ≠ l) = left' at hinv hsub' ⊢
  have hcalled : a.status c = .called .read := by
    rw [h.status c, hpc, status_reading (List.ne_nil_of_mem hl)]
  have hcurrent : Current (s.setPc c (.reading behavior left' copy')) a.state.1 a.state.2 :=
    h.current.of_eq (fun _ _ => rfl) fun _ _ hk => hk
  by_cases hdone : left' = [] ∧ Layout.accepts degree copy' behavior = true
  · -- the copy is complete and will be accepted
    obtain ⟨rfl, haccepts⟩ := hdone
    have hok := hinv.pc c
    rw [State.setPc_self] at hok
    have hwhole := whole_of_accepts (fun m hm => hok m hm List.not_mem_nil) haccepts
    have hlast : (copy' l).stamp = (s.node l).stamp := by
      rw [← hcopy', Function.update_self]
    obtain ⟨hversion, hdata⟩ := hcurrent.whole hwhole (hsub hl) hlast
    refine ⟨_, hrun.commit hcalled, ?_⟩
    have hstatus : (.reading behavior [] copy' : Pc Y).status degree = .done (.content a.state.1 a.state.2) := by
      rw [Pc.status, if_pos ⟨rfl, haccepts⟩, hversion, hdata]
    have hmove := h.move hinv rfl hsub' hcurrent
    rw [hstatus] at hmove
    exact hmove
  · refine ⟨a, hrun, h.stay hinv rfl hsub' hcurrent ?_⟩
    rw [hpc, status_reading (List.ne_nil_of_mem hl), Pc.status, if_neg hdone]

lemma Refines.store (h : Refines degree s a) (hrun : Atomic.Run (versioned d₀) hist a) {l : Y.L}
    (hpc : s.pc c = .storing image left) (hl : l ∈ left)
    (hinv : Inv ({ s with node := Function.update s.node l (image l) }.setPc c
      (if left.filter (· ≠ l) = [] then .idle else .storing image (left.filter (· ≠ l))))) :
    ∃ a', Atomic.Run (versioned d₀) (hist ++ (observe degree s (.store c l)).toList) a' ∧ Refines degree
      ({ s with node := Function.update s.node l (image l) }.setPc c
        (if left.filter (· ≠ l) = [] then .idle else .storing image (left.filter (· ≠ l)))) a' := by
  have hok := h.inv.pc c
  rw [hpc] at hok
  have hlength := h.current.storing hok
  obtain ⟨himage, hversion⟩ := h.inv.storing h.current hpc
  obtain ⟨-, hsub, -, hlate, hdone⟩ := hok
  have hcalled : a.status c = .called (.update a.state.1 (Layout.content image)) := by
    rw [h.status c, hpc, Pc.status, (hversion _ Y.first_mem).1, Nat.add_sub_cancel]
  by_cases hnil : left.filter (· ≠ l) = []
  · simp only [observe, hpc, if_pos hnil, Option.toList_some] at hinv ⊢
    have happly : (versioned d₀).apply a.state (.update a.state.1 (Layout.content image)) =
        ((a.state.1 + 1, Layout.content image), .updated true) := if_pos rfl
    have hcommit := hrun.commit hcalled
    rw [happly] at hcommit
    refine ⟨_, hcommit.ret Atomic.setStatus_self, hinv, ⟨fun m hm => ?_, ⟨l, hsub hl, ?_⟩, image, himage, rfl⟩,
      fun c' => ?_, fun c' => ?_⟩
    · by_cases hml : m = l
      · subst hml
        simp only [State.setPc, Atomic.setStatus, Function.update_self]
        exact Nat.le_of_eq (hversion m hm).2.symm
      · have hmleft : m ∉ left := by
          intro hmem
          have : m ∈ left.filter (· ≠ l) := List.mem_filter.mpr ⟨hmem, decide_eq_true hml⟩
          rw [hnil] at this
          cases this
        have hm' := hdone m hm hmleft
        simp only [State.setPc, Atomic.setStatus, Function.update_of_ne hml]
        omega
    · simp only [State.setPc, Atomic.setStatus, Function.update_self]
      exact (hversion l (hsub hl)).2
    · by_cases hc : c' = c
      · subst hc
        rw [State.setPc_self]
        trivial
      · rw [State.setPc_other hc]
        exact h.listed c'
    · by_cases hc : c' = c
      · subst hc
        rw [Atomic.setStatus_self, State.setPc_self]
        rfl
      · rw [Atomic.setStatus_other hc, Atomic.setStatus_other hc, State.setPc_other hc]
        exact h.status c'
  · simp only [observe, hpc, if_neg hnil, Option.toList_none, List.append_nil] at hinv ⊢
    refine ⟨a, hrun, h.stay hinv rfl trivial ⟨fun m hm => ?_, ?_, ?_⟩ ?_⟩
    · by_cases hml : m = l
      · subst hml
        simp only [State.setPc, Function.update_self]
        have hm' := (hversion m hm).2
        omega
      · simp only [State.setPc, Function.update_of_ne hml]
        exact h.current.reached m hm
    · obtain ⟨m, hm⟩ := List.exists_mem_of_ne_nil _ hnil
      obtain ⟨hmleft, hml⟩ := List.mem_filter.mp hm
      have hml : m ≠ l := of_decide_eq_true hml
      have hm' := hlate m hmleft
      refine ⟨m, hsub hmleft, ?_⟩
      simp only [State.setPc, Function.update_of_ne hml]
      omega
    · exact h.current.image
    · rw [hpc]
      rfl

lemma Refines.check (h : Refines degree s a) (hrun : Atomic.Run (versioned d₀) hist a)
    (hpc : s.pc c = .reading behavior [] copy) (hs : step degree s (.check c) = some s') (hinv : Inv s') :
    ∃ a', Atomic.Run (versioned d₀) (hist ++ (observe degree s (.check c)).toList) a' ∧ Refines degree s' a' := by
  simp only [step, observe, hpc] at hs ⊢
  split_ifs at hs ⊢ with haccepts <;> cases hs
  · have hdone : a.status c = .done (.content (copy Y.first).stamp (Layout.content copy)) := by
      rw [h.status c, hpc, Pc.status, if_pos ⟨rfl, haccepts⟩]
    exact ⟨_, hrun.ret hdone, h.move hinv rfl trivial (h.current.of_eq (fun _ _ => rfl) fun _ _ hk => hk)⟩
  · rw [Option.toList_none, List.append_nil]
    refine ⟨a, hrun, h.stay hinv rfl (List.Subset.refl _) (h.current.of_eq (fun _ _ => rfl) fun _ _ hk => hk) ?_⟩
    rw [hpc, status_reading lines_ne_nil, Pc.status, if_neg fun hd => haccepts hd.2]

lemma Refines.acquire (h : Refines degree s a) (hpc : s.pc c = .returned copy)
    (hv : (s.node Y.first).version = unlocked (copy Y.first).version) :
    Refines degree ({ s with
      node := Layout.setWord s.node (unlocked (copy Y.first).version ||| LOCK_BIT) }.setPc c (.locked copy)) a := by
  have hword : unlocked (unlocked (copy Y.first).version ||| LOCK_BIT) = unlocked (s.node Y.first).version := by
    rw [unlocked_lock, hv]
  refine h.stay (h.inv.acquire hpc hv) rfl trivial (setWord_current h.current hword) ?_
  rw [hpc]
  rfl

lemma Refines.release (h : Refines degree s a) (hpc : s.pc c = .locked copy) :
    Refines degree
      ({ s with node := Layout.setWord s.node (unlocked (copy Y.first).version) }.setPc c .idle) a := by
  have hok := h.inv.pc c
  rw [hpc] at hok
  obtain ⟨-, hcopy, hlast⟩ := hok
  have hword : unlocked (unlocked (copy Y.first).version) = unlocked (s.node Y.first).version := by
    have hfirst := hlast Y.first Y.first_mem
    have hstamp : (copy Y.first).stamp = (s.node Y.first).stamp := by omega
    rw [unlocked_unlocked]
    exact BitVec.eq_of_toNat_eq hstamp
  refine h.stay (h.inv.release hpc) rfl trivial (setWord_current h.current hword) ?_
  rw [hpc]
  rfl

lemma Refines.write (h : Refines degree s a) (hpc : s.pc c = .locked copy)
    (hi : Layout.incrementable copy = true) (data : (l : Y.L) → Y.D l) :
    Refines degree
      ({ s with images := s.images ++ [nextImage copy data] }.setPc c (.storing (nextImage copy data) Y.lines))
      (a.setStatus c (.called (.update (copy Y.first).stamp fun l : {l // l ∈ Y.lines} => data l))) := by
  have hok := h.inv.pc c
  rw [hpc] at hok
  obtain ⟨hwhole, -⟩ := hok
  have hversion := (nextImage_version hwhole hi data rfl).2 _ Y.first_mem
  have hstatus : (.storing (nextImage copy data) Y.lines : Pc Y).status degree =
      .called (.update (copy Y.first).stamp fun l : {l // l ∈ Y.lines} => data l) := by
    rw [Pc.status, hversion, Nat.add_sub_cancel, content_nextImage]
  have hmove := h.move (h.inv.write hpc hi data) rfl trivial
    (h.current.of_eq (fun _ _ => rfl) fun _ _ hk => getElem?_append_some hk)
  rw [hstatus] at hmove
  exact hmove

/-- Every step of a client is one of the object's, or none. -/
lemma Refines.step (h : Refines degree s a) (hrun : Atomic.Run (versioned d₀) hist a) {x : Act Y C}
    (hs : step degree s x = some s') :
    ∃ a', Atomic.Run (versioned d₀) (hist ++ (observe degree s x).toList) a' ∧ Refines degree s' a' := by
  have hinv := inv_step h.inv hs
  cases x with
  | read c behavior buffer =>
    have hstart : s' = s.setPc c (.reading behavior Y.lines buffer) ∧ a.status c = .idle := by
      simp only [Btree.step] at hs
      rw [h.status c]
      split at hs <;> rename_i hpc <;> cases hs <;> rw [hpc] <;> exact ⟨rfl, rfl⟩
    obtain ⟨rfl, hidle⟩ := hstart
    have hmove := h.move hinv rfl (List.Subset.refl _) (h.current.of_eq (fun _ _ => rfl) fun _ _ hk => hk)
    rw [status_reading lines_ne_nil] at hmove
    exact ⟨_, hrun.call hidle, hmove⟩
  | fetch c l =>
    simp only [Btree.step] at hs
    split at hs
    · rename_i behavior left copy hpc
      split_ifs at hs with hl
      cases hs
      rw [observe, Option.toList_none, List.append_nil]
      exact h.fetch hrun hpc hl hinv
    · cases hs
  | check c =>
    have hread := hs
    simp only [Btree.step] at hread
    split at hread
    · rename_i behavior copy hpc
      exact h.check hrun hpc hs hinv
    · cases hread
  | acquire c =>
    rw [observe, Option.toList_none, List.append_nil]
    simp only [Btree.step] at hs
    split at hs
    · rename_i copy hpc
      split_ifs at hs with hv <;> cases hs
      · exact ⟨a, hrun, h.acquire hpc hv⟩
      · refine ⟨a, hrun, h.stay hinv rfl trivial (h.current.of_eq (fun _ _ => rfl) fun _ _ hk => hk) ?_⟩
        rw [hpc]
        rfl
    · cases hs
  | release c =>
    rw [observe, Option.toList_none, List.append_nil]
    simp only [Btree.step] at hs
    split at hs
    · rename_i copy hpc
      cases hs
      exact ⟨a, hrun, h.release hpc⟩
    · cases hs
  | write c data =>
    simp only [Btree.step] at hs
    split at hs
    · rename_i copy hpc
      split_ifs at hs with hi
      cases hs
      have hidle : a.status c = .idle := by
        rw [h.status c, hpc]
        rfl
      simp only [observe, hpc]
      exact ⟨_, hrun.call hidle, h.write hpc hi data⟩
    · cases hs
  | store c l =>
    simp only [Btree.step] at hs
    split at hs
    · rename_i image left hpc
      by_cases hl : l ∈ left
      · rw [if_pos hl, Option.some.injEq] at hs
        subst hs
        exact h.store hrun hpc hl hinv
      · rw [if_neg hl] at hs
        cases hs
    · cases hs

end Steps

lemma Refines.initial (h : Initial s) : Refines degree s ⟨(0, Layout.content s.node), fun _ => .idle⟩ := by
  have hinv := inv_initial h
  obtain ⟨image, hzero, himages, hstart⟩ := h
  have hword : unlocked LOCK_BIT = unlocked (image Y.first).version := by
    rw [hzero]
    decide
  have hstamp : ∀ l, (image l).stamp = 0 := by
    intro l
    rw [Line.stamp, hzero]
    rfl
  have himage : s.images[0]? = some image := by
    rw [himages]
    rfl
  rcases hstart with ⟨hnode, hpc⟩ | ⟨hnode, c, hpc, hidle⟩
  · refine ⟨hinv, ⟨fun l _ => Nat.zero_le _, ⟨Y.first, Y.first_mem, ?_⟩, image, himage, ?_⟩, fun c => ?_, fun c => ?_⟩
    · rw [hnode, hstamp]
    · rw [hnode]
    · rw [hpc c]
      trivial
    · rw [hpc c]
      rfl
  · refine ⟨hinv, ⟨fun l _ => Nat.zero_le _, ⟨Y.first, Y.first_mem, ?_⟩, image, himage, ?_⟩, fun c' => ?_,
      fun c' => ?_⟩
    · rw [hnode, setWord_stamp hword, hstamp]
    · rw [hnode, content_setWord]
    · by_cases hc : c' = c
      · rw [hc, hpc]
        trivial
      · rw [hidle c' hc]
        trivial
    · by_cases hc : c' = c
      · rw [hc, hpc]
        rfl
      · rw [hidle c' hc]
        rfl

lemma block_linearizable (r : (machine Y C degree).Run) {i : ℕ} (hi : i ≤ r.len) :
    Linearizable (versioned (Layout.content (r.state 0).node)) (r.history (observe degree) i) := by
  apply linearizable_of_steps r (R := Refines degree)
  · exact .initial r.start
  · exact fun _ _ _ _ _ h hrun hs => h.step hrun hs
  · exact hi

variable {A V : Type}

/-- The inner nodes and the leaves are registers: every read returns a content that was current during the read,
and every update replaces the content that its client has read, with no other update between the two. -/
theorem blocks_linearizable (degree size : ℕ) :
    (∀ (r : (machine (nodeLayout A degree) C degree).Run) (i : ℕ), i ≤ r.len →
      Linearizable (versioned (Layout.content (r.state 0).node)) (r.history (observe degree) i)) ∧
    ∀ (r : (machine (leafLayout A V degree size) C degree).Run) (i : ℕ), i ≤ r.len →
      Linearizable (versioned (Layout.content (r.state 0).node)) (r.history (observe degree) i) :=
  ⟨fun r _ hi => block_linearizable r hi, fun r _ hi => block_linearizable r hi⟩

theorem blocks_linearizable_after_write :
    Linearizable (versioned (Layout.content (nodeRun.state 0).node)) (nodeRun.history (observe 1) 12) ∧
    Linearizable (versioned (Layout.content (leafRun.state 0).node)) (leafRun.history (observe 1) 12) :=
  ⟨(blocks_linearizable (V := ℕ) 1 8).1 nodeRun 12 (by decide), (blocks_linearizable 1 8).2 leafRun 12 (by decide)⟩

end ObjectCache.Btree
