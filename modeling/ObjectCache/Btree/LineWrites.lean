import ObjectCache.Btree.Lines
import ObjectCache.Lib.Transition

/-! A block that is read and written one line at a time: `reliable_read`, `try_acquire`, `release` and
the write of an incremented copy. -/

namespace ObjectCache.Btree

open Lib

set_option linter.unusedSectionVars false

inductive ReadBehavior where
  | IGNORE_LOCK
  | LOOK_FOR_SPLIT_MERGE
  | WILL_NEED_ACQUIRE

/-- What the templates use of a block type. The lines that are stored and fetched are `lines`. -/
structure Layout where
  L : Type
  [dec : DecidableEq L]
  D : L → Type
  lines : List L
  first : L
  first_mem : first ∈ lines
  other : ∃ l ∈ lines, l ≠ first
  key_at : ((l : L) → Line (D l)) → ℕ → Key
  is_valid : ((l : L) → Line (D l)) → Bool → Bool
  valid_eq : ∀ b ignore_lock, is_valid b ignore_lock = true → ∀ l ∈ lines, l ≠ first →
    (b l).version = base (b first).version ignore_lock

attribute [instance] Layout.dec

namespace Layout

variable (Y : Layout)

abbrev Block := (l : Y.L) → Line (Y.D l)

variable {Y}

/-- The block with another first word. -/
def setWord (b : Y.Block) (word : BitVec 64) : Y.Block :=
  Function.update b Y.first { b Y.first with version := word }

def increment (b : Y.Block) : Y.Block := fun l =>
  if l = Y.first then { b l with version := unlocked (b l).version + 1 } else (b l).increment

/-- No `version++` of the copy overflows its `long`; the first line is incremented unsigned. -/
def incrementable (b : Y.Block) : Bool :=
  Y.lines.all fun l => l = Y.first ∨ (b l).version ≠ ~~~LOCK_BIT

/-- The condition that ends the loop of `reliable_read`. -/
def accepts (degree : ℕ) (b : Y.Block) : ReadBehavior → Bool
  | .IGNORE_LOCK => Y.is_valid b true
  | .LOOK_FOR_SPLIT_MERGE =>
    Y.is_valid b (Y.key_at b (SIZE degree - 1) ≠ SENTINEL ∨ Y.key_at b 0 = SENTINEL)
  | .WILL_NEED_ACQUIRE => Y.is_valid b false

end Layout

/-- Where a client stands, with the lines it has still to fetch or to store. -/
inductive Pc (Y : Layout) where
  | idle
  | reading (behavior : ReadBehavior) (left : List Y.L) (copy : Y.Block)
  | returned (copy : Y.Block)
  | locked (copy : Y.Block)
  | storing (image : Y.Block) (left : List Y.L)

/-- The block, and all versions of it that a write has begun to store. -/
structure State (Y : Layout) (C : Type) where
  node : Y.Block
  images : List Y.Block
  pc : C → Pc Y

inductive Act (Y : Layout) (C : Type) where
  | read (c : C) (behavior : ReadBehavior) (buffer : Y.Block)
  | fetch (c : C) (l : Y.L)
  | check (c : C)
  | acquire (c : C)
  | release (c : C)
  | write (c : C) (data : (l : Y.L) → Y.D l)
  | store (c : C) (l : Y.L)

variable {Y : Layout} {C : Type} [DecidableEq C]

def State.setPc (s : State Y C) (c : C) (pc : Pc Y) : State Y C :=
  { s with pc := Function.update s.pc c pc }

/-- The version of `write` starts from the copy and holds any data. -/
def nextImage (copy : Y.Block) (data : (l : Y.L) → Y.D l) : Y.Block :=
  Layout.increment fun l => { copy l with data := data l }

def step (degree : ℕ) (s : State Y C) : Act Y C → Option (State Y C)
  | .read c behavior buffer =>
    match s.pc c with
    | .idle | .returned _ => some (s.setPc c (.reading behavior Y.lines buffer))
    | _ => none
  | .fetch c l =>
    match s.pc c with
    | .reading behavior left copy =>
      if l ∈ left then
        some (s.setPc c (.reading behavior (left.filter (· ≠ l)) (Function.update copy l (s.node l))))
      else none
    | _ => none
  | .check c =>
    match s.pc c with
    | .reading behavior [] copy =>
      if Layout.accepts degree copy behavior then some (s.setPc c (.returned copy))
      else some (s.setPc c (.reading behavior Y.lines copy))
    | _ => none
  | .acquire c =>
    match s.pc c with
    | .returned copy =>
      let version := unlocked (copy Y.first).version
      if (s.node Y.first).version = version then
        some ({ s with node := Layout.setWord s.node (version ||| LOCK_BIT) }.setPc c (.locked copy))
      else some (s.setPc c .idle)
    | _ => none
  | .release c =>
    match s.pc c with
    | .locked copy =>
      some ({ s with node := Layout.setWord s.node (unlocked (copy Y.first).version) }.setPc c .idle)
    | _ => none
  | .write c data =>
    match s.pc c with
    | .locked copy =>
      if Layout.incrementable copy then
        some ({ s with images := s.images ++ [nextImage copy data] }.setPc c
          (.storing (nextImage copy data) Y.lines))
      else none
    | _ => none
  | .store c l =>
    match s.pc c with
    | .storing image left =>
      if l ∈ left then
        let left := left.filter (· ≠ l)
        some ({ s with node := Function.update s.node l (image l) }.setPc c
          (if left = [] then .idle else .storing image left))
      else none
    | _ => none

/-- A block starts at version 0. The new leaf of a split starts locked by the client that made it. -/
def Initial (s : State Y C) : Prop :=
  ∃ image : Y.Block, (∀ l, (image l).version = 0) ∧ s.images = [image] ∧
    ((s.node = image ∧ ∀ c, s.pc c = .idle) ∨
      (s.node = Layout.setWord image LOCK_BIT ∧
        ∃ c, s.pc c = .locked image ∧ ∀ c', c' ≠ c → s.pc c' = .idle))

def machine (Y : Layout) (C : Type) [DecidableEq C] (degree : ℕ) : Machine (State Y C) (Act Y C) where
  init := Initial
  step := step degree

/-- The outcomes of a step. -/
inductive Moves (degree : ℕ) (s : State Y C) : State Y C → Prop
  | read (c : C) (behavior : ReadBehavior) (buffer : Y.Block)
    (h : s.pc c = .idle ∨ ∃ copy, s.pc c = .returned copy) :
    Moves degree s (s.setPc c (.reading behavior Y.lines buffer))
  | fetch (c : C) (l : Y.L) (behavior : ReadBehavior) (left : List Y.L) (copy : Y.Block)
    (h : s.pc c = .reading behavior left copy) (hl : l ∈ left) :
    Moves degree s
      (s.setPc c (.reading behavior (left.filter (· ≠ l)) (Function.update copy l (s.node l))))
  | accept (c : C) (behavior : ReadBehavior) (copy : Y.Block) (h : s.pc c = .reading behavior [] copy)
    (ha : Layout.accepts degree copy behavior = true) : Moves degree s (s.setPc c (.returned copy))
  | reread (c : C) (behavior : ReadBehavior) (copy : Y.Block)
    (h : s.pc c = .reading behavior [] copy) :
    Moves degree s (s.setPc c (.reading behavior Y.lines copy))
  | acquire (c : C) (copy : Y.Block) (h : s.pc c = .returned copy)
    (hv : (s.node Y.first).version = unlocked (copy Y.first).version) :
    Moves degree s ({ s with
      node := Layout.setWord s.node (unlocked (copy Y.first).version ||| LOCK_BIT) }.setPc c
        (.locked copy))
  | fail (c : C) (copy : Y.Block) (h : s.pc c = .returned copy) : Moves degree s (s.setPc c .idle)
  | release (c : C) (copy : Y.Block) (h : s.pc c = .locked copy) :
    Moves degree s
      ({ s with node := Layout.setWord s.node (unlocked (copy Y.first).version) }.setPc c .idle)
  | write (c : C) (data : (l : Y.L) → Y.D l) (copy : Y.Block) (h : s.pc c = .locked copy)
    (hi : Layout.incrementable copy = true) :
    Moves degree s ({ s with images := s.images ++ [nextImage copy data] }.setPc c
      (.storing (nextImage copy data) Y.lines))
  | store (c : C) (l : Y.L) (image : Y.Block) (left : List Y.L) (h : s.pc c = .storing image left)
    (hl : l ∈ left) :
    Moves degree s ({ s with node := Function.update s.node l (image l) }.setPc c
      (if left.filter (· ≠ l) = [] then .idle else .storing image (left.filter (· ≠ l))))

lemma moves_of_step {degree : ℕ} {s s' : State Y C} {a : Act Y C} (h : step degree s a = some s') :
    Moves degree s s' := by
  cases a with
  | read c behavior buffer =>
    simp only [step] at h
    split at h
    · rename_i hpc
      cases h
      exact .read c behavior buffer (.inl hpc)
    · rename_i copy hpc
      cases h
      exact .read c behavior buffer (.inr ⟨copy, hpc⟩)
    · cases h
  | fetch c l =>
    simp only [step] at h
    split at h
    · rename_i behavior left copy hpc
      split_ifs at h with hl
      cases h
      exact .fetch c l behavior left copy hpc hl
    · cases h
  | check c =>
    simp only [step] at h
    split at h
    · rename_i behavior copy hpc
      split_ifs at h with ha <;> cases h
      · exact .accept c behavior copy hpc ha
      · exact .reread c behavior copy hpc
    · cases h
  | acquire c =>
    simp only [step] at h
    split at h
    · rename_i copy hpc
      split_ifs at h with hv <;> cases h
      · exact .acquire c copy hpc hv
      · exact .fail c copy hpc
    · cases h
  | release c =>
    simp only [step] at h
    split at h
    · rename_i copy hpc
      cases h
      exact .release c copy hpc
    · cases h
  | write c data =>
    simp only [step] at h
    split at h
    · rename_i copy hpc
      split_ifs at h with hi
      cases h
      exact .write c data copy hpc hi
    · cases h
  | store c l =>
    simp only [step] at h
    split at h
    · rename_i image left hpc
      by_cases hl : l ∈ left
      · rw [if_pos hl, Option.some.injEq] at h
        exact h ▸ .store c l image left hpc hl
      · rw [if_neg hl] at h
        cases h
    · cases h

/-! ### Where a line comes from -/

/-- The version of a line, whether it is locked or not. -/
def Line.stamp {D : Type} (line : Line D) : ℕ := (unlocked line.version).toNat

/-- The line is the one of the image whose version it shows. -/
def Of (images : List Y.Block) (l : Y.L) (line : Line (Y.D l)) : Prop :=
  ∃ image : Y.Block, images[line.stamp]? = some image ∧ line.data = (image l).data ∧
    (l ≠ Y.first → line.version.toNat < 2 ^ 63)

/-- The same for a line that was fetched. -/
def Fetched (s : State Y C) (l : Y.L) (line : Line (Y.D l)) : Prop :=
  Of s.images l line ∧ line.stamp ≤ (s.node l).stamp

/-- All lines of a copy show one version. -/
structure Whole (s : State Y C) (copy : Y.Block) : Prop where
  fetched : ∀ l ∈ Y.lines, Fetched s l (copy l)
  same : ∀ l ∈ Y.lines, (copy l).stamp = (copy Y.first).stamp

def Pc.busy : Pc Y → Bool
  | .locked _ | .storing _ _ => true
  | _ => false

/-- The first line is locked for this client. -/
def Pc.holds : Pc Y → Prop
  | .locked _ => True
  | .storing _ left => Y.first ∈ left
  | _ => False

def Pc.Ok (s : State Y C) : Pc Y → Prop
  | .idle => True
  | .reading _ left copy => ∀ l ∈ Y.lines, l ∉ left → Fetched s l (copy l)
  | .returned copy => Whole s copy
  | .locked copy => Whole s copy ∧ (copy Y.first).stamp + 1 = s.images.length ∧
      ∀ l ∈ Y.lines, (s.node l).stamp + 1 = s.images.length
  | .storing image left => left ≠ [] ∧ left ⊆ Y.lines ∧ s.images.getLast? = some image ∧
      (∀ l ∈ left, (s.node l).stamp + 2 = s.images.length) ∧
      ∀ l ∈ Y.lines, l ∉ left → (s.node l).stamp + 1 = s.images.length

structure Inv (s : State Y C) : Prop where
  numbered : ∀ (k : ℕ) (image : Y.Block), s.images[k]? = some image →
    ∀ l ∈ Y.lines, (image l).version.toNat = k
  few : s.images.length ≤ 2 ^ 63
  node : ∀ l ∈ Y.lines, Of s.images l (s.node l)
  pc : ∀ c, (s.pc c).Ok s
  alone : ∀ c c', (s.pc c).busy = true → (s.pc c').busy = true → c = c'
  settled : (∀ c, (s.pc c).busy = false) → ∀ l ∈ Y.lines, (s.node l).stamp + 1 = s.images.length
  held : ∀ c, (s.pc c).holds → 2 ^ 63 ≤ (s.node Y.first).version.toNat

/-- Images stay, and lines are replaced by later ones. -/
structure Grows (s s' : State Y C) : Prop where
  images : ∀ (k : ℕ) (image : Y.Block), s.images[k]? = some image → s'.images[k]? = some image
  node : ∀ l ∈ Y.lines, (s.node l).stamp ≤ (s'.node l).stamp

lemma Of.mono {images images' : List Y.Block} {l : Y.L} {line : Line (Y.D l)}
    (h : Of images l line)
    (hi : ∀ (k : ℕ) (image : Y.Block), images[k]? = some image → images'[k]? = some image) :
    Of images' l line := by
  obtain ⟨image, him, hdata, hlt⟩ := h
  exact ⟨image, hi _ _ him, hdata, hlt⟩

lemma Whole.mono {s s' : State Y C} {copy : Y.Block} (h : Whole s copy) (hg : Grows s s') :
    Whole s' copy := by
  refine ⟨fun l hl => ?_, h.same⟩
  obtain ⟨hof, hle⟩ := h.fetched l hl
  exact ⟨hof.mono hg.images, Nat.le_trans hle (hg.node l hl)⟩

lemma Pc.Ok.mono {s s' : State Y C} {pc : Pc Y} (h : pc.Ok s) (hb : pc.busy = false)
    (hg : Grows s s') : pc.Ok s' := by
  cases pc with
  | idle => trivial
  | reading behavior left copy =>
    intro l hl hn
    obtain ⟨hof, hle⟩ := h l hl hn
    exact ⟨hof.mono hg.images, Nat.le_trans hle (hg.node l hl)⟩
  | returned copy => exact Whole.mono h hg
  | locked copy => cases hb
  | storing image left => cases hb

lemma Pc.Ok.congr {s s' : State Y C} {pc : Pc Y} (h : pc.Ok s) (hn : s'.node = s.node)
    (hi : s'.images = s.images) : pc.Ok s' := by
  have hg : Grows s s' := by
    refine ⟨fun k image h => ?_, fun l _ => ?_⟩
    · rwa [hi]
    · exact Nat.le_of_eq (by rw [hn])
  cases pc with
  | idle => trivial
  | reading behavior left copy => exact h.mono rfl hg
  | returned copy => exact h.mono rfl hg
  | locked copy =>
    obtain ⟨hw, hrest⟩ := h
    refine ⟨hw.mono hg, ?_⟩
    rw [hn, hi]
    exact hrest
  | storing image left =>
    simp only [Pc.Ok, hn, hi]
    exact h

/-! ### Words -/

lemma toNat_lock (v : BitVec 64) : 2 ^ 63 ≤ (v ||| LOCK_BIT).toNat := by
  have hlock : LOCK_BIT.toNat = 2 ^ 63 := by decide
  rw [BitVec.toNat_or, hlock]
  exact Nat.right_le_or

@[simp]
lemma unlocked_lock (v : BitVec 64) : unlocked (v ||| LOCK_BIT) = unlocked v := by
  have hlock : LOCK_BIT &&& ~~~LOCK_BIT = 0#64 := by decide
  rw [unlocked, unlocked, BitVec.and_or_distrib_right, hlock, BitVec.or_zero]

lemma toNat_of_unlocked {v : BitVec 64} (h : v.toNat < 2 ^ 63) : (unlocked v).toNat = v.toNat := by
  rw [toNat_unlocked, Nat.mod_eq_of_lt h]

lemma stamp_eq {D : Type} {line : Line D} (h : line.version.toNat < 2 ^ 63) :
    line.stamp = line.version.toNat := toNat_of_unlocked h

lemma setWord_stamp {b : Y.Block} {word : BitVec 64}
    (h : unlocked word = unlocked (b Y.first).version) (l : Y.L) :
    (Layout.setWord b word l).stamp = (b l).stamp := by
  by_cases hl : l = Y.first
  · subst hl
    simp [Layout.setWord, Line.stamp, h]
  · simp [Layout.setWord, hl]

lemma Of.setWord {images : List Y.Block} {b : Y.Block} {word : BitVec 64} {l : Y.L}
    (h : Of images l (b l)) (hw : unlocked word = unlocked (b Y.first).version) :
    Of images l (Layout.setWord b word l) := by
  by_cases hl : l = Y.first
  · subst hl
    obtain ⟨image, him, hdata, -⟩ := h
    refine ⟨image, ?_, ?_, fun h => absurd rfl h⟩
    · rw [setWord_stamp hw]
      exact him
    · simpa [Layout.setWord] using hdata
  · simpa [Layout.setWord, hl] using h

/-! ### Every step -/

variable {degree : ℕ}

lemma Of.lt {s : State Y C} {l : Y.L} {line : Line (Y.D l)} (ho : Of s.images l line) :
    line.stamp < s.images.length := by
  obtain ⟨image, him, -⟩ := ho
  obtain ⟨hlt, -⟩ := List.getElem?_eq_some_iff.mp him
  exact hlt

/-- A copy that passes the check shows one version: without the lock bit, the versions of all other
lines are below it. -/
lemma whole_of_accepts {s : State Y C} {copy : Y.Block} {behavior : ReadBehavior}
    (hf : ∀ l ∈ Y.lines, Fetched s l (copy l))
    (ha : Layout.accepts degree copy behavior = true) : Whole s copy := by
  obtain ⟨ignore_lock, hvalid⟩ : ∃ ignore_lock, Y.is_valid copy ignore_lock = true := by
    cases behavior with
    | IGNORE_LOCK => exact ⟨true, ha⟩
    | LOOK_FOR_SPLIT_MERGE => exact ⟨_, ha⟩
    | WILL_NEED_ACQUIRE => exact ⟨false, ha⟩
  have heq := Y.valid_eq copy ignore_lock hvalid
  have hsmall : ∀ l ∈ Y.lines, l ≠ Y.first → (copy l).version.toNat < 2 ^ 63 := by
    intro l hl hne
    obtain ⟨⟨image, -, -, hlt⟩, -⟩ := hf l hl
    exact hlt hne
  have hword : unlocked (base (copy Y.first).version ignore_lock) =
      unlocked (copy Y.first).version := by
    cases ignore_lock with
    | true => exact unlocked_unlocked _
    | false => rfl
  refine ⟨hf, fun l hl => ?_⟩
  by_cases hne : l = Y.first
  · rw [hne]
  · rw [Line.stamp, Line.stamp, heq l hl hne, hword]

lemma Inv.goto {s : State Y C} (h : Inv s) {c : C} {pc : Pc Y} (hold : (s.pc c).busy = false)
    (hnew : pc.busy = false) (hok : pc.Ok s) : Inv (s.setPc c pc) := by
  have hcases : ∀ c', (c' = c ∧ (s.setPc c pc).pc c' = pc) ∨ (s.setPc c pc).pc c' = s.pc c' := by
    intro c'
    by_cases hc : c' = c
    · subst hc
      exact .inl ⟨rfl, Function.update_self ..⟩
    · exact .inr (Function.update_of_ne hc ..)
  have hbusy : ∀ c', ((s.setPc c pc).pc c').busy = (s.pc c').busy := by
    intro c'
    rcases hcases c' with ⟨rfl, hc⟩ | hc <;> rw [hc]
    rw [hnew, hold]
  refine ⟨h.numbered, h.few, h.node, fun c' => ?_, fun c' c'' hb hb' => ?_, fun hno => ?_,
    fun c' hh => ?_⟩
  · rcases hcases c' with ⟨-, hc⟩ | hc <;> rw [hc]
    · exact hok.congr rfl rfl
    · exact (h.pc c').congr rfl rfl
  · rw [hbusy] at hb hb'
    exact h.alone c' c'' hb hb'
  · exact h.settled fun c' => (hbusy c') ▸ hno c'
  · rcases hcases c' with ⟨-, hc⟩ | hc <;> rw [hc] at hh
    · cases pc <;> cases hnew <;> cases hh
    · exact h.held c' hh

lemma Pc.busy_of_holds {pc : Pc Y} (h : pc.holds) : pc.busy = true := by
  cases pc <;> first | rfl | cases h

/-- A step of the only busy client. -/
lemma Inv.busyStep {s s' : State Y C} (h : Inv s) {c : C} (hg : Grows s s')
    (hother : ∀ c', c' ≠ c → (s.pc c').busy = false) (hpc : ∀ c', c' ≠ c → s'.pc c' = s.pc c')
    (hnumbered : ∀ (k : ℕ) (image : Y.Block), s'.images[k]? = some image →
      ∀ l ∈ Y.lines, (image l).version.toNat = k)
    (hfew : s'.images.length ≤ 2 ^ 63) (hnode : ∀ l ∈ Y.lines, Of s'.images l (s'.node l))
    (hok : (s'.pc c).Ok s')
    (hsettled : (s'.pc c).busy = false → ∀ l ∈ Y.lines, (s'.node l).stamp + 1 = s'.images.length)
    (hheld : (s'.pc c).holds → 2 ^ 63 ≤ (s'.node Y.first).version.toNat) : Inv s' := by
  refine ⟨hnumbered, hfew, hnode, fun c' => ?_, fun c' c'' hb hb' => ?_, fun hno => hsettled (hno c),
    fun c' hh => ?_⟩
  · by_cases hc : c' = c
    · rw [hc]
      exact hok
    · rw [hpc c' hc]
      exact (h.pc c').mono (hother c' hc) hg
  · have hself : ∀ c', (s'.pc c').busy = true → c' = c := by
      intro c' hb
      by_contra hc
      rw [hpc c' hc, hother c' hc] at hb
      cases hb
    rw [hself c' hb, hself c'' hb']
  · by_cases hc : c' = c
    · exact hheld (hc ▸ hh)
    · have hb := Pc.busy_of_holds hh
      rw [hpc c' hc, hother c' hc] at hb
      cases hb

/-- Nobody is busy when the lock word shows the version of a whole copy. -/
lemma Inv.unbusy {s : State Y C} (h : Inv s) {copy : Y.Block} (hw : Whole s copy)
    (hv : (s.node Y.first).version = unlocked (copy Y.first).version) (c : C) :
    (s.pc c).busy = false := by
  have hunlocked : ¬ 2 ^ 63 ≤ (s.node Y.first).version.toNat := by
    rw [hv]
    exact Nat.not_le.mpr (toNat_unlocked_lt _)
  have hfree : ¬ (s.pc c).holds := fun hh => hunlocked (h.held c hh)
  have hok := h.pc c
  cases hpc : s.pc c with
  | idle | reading behavior left copy | returned copy => rfl
  | locked copy =>
    rw [hpc] at hfree
    exact absurd trivial hfree
  | storing image left =>
    rw [hpc] at hfree hok
    obtain ⟨hne, hsub, -, hbehind, hdone⟩ := hok
    obtain ⟨l, hl⟩ := List.exists_mem_of_ne_nil left hne
    have hfirst := hdone Y.first Y.first_mem hfree
    have hlate := hbehind l hl
    have hle := (hw.fetched l (hsub hl)).2
    rw [hw.same l (hsub hl)] at hle
    have hstamp : (s.node Y.first).stamp = (copy Y.first).stamp := by
      rw [Line.stamp, Line.stamp, hv, unlocked_unlocked]
    omega

lemma Inv.acquire {s : State Y C} (h : Inv s) {c : C} {copy : Y.Block}
    (hpc : s.pc c = .returned copy)
    (hv : (s.node Y.first).version = unlocked (copy Y.first).version) :
    Inv ({ s with
      node := Layout.setWord s.node (unlocked (copy Y.first).version ||| LOCK_BIT) }.setPc c
        (.locked copy)) := by
  have hw : Whole s copy := by
    have := h.pc c
    rwa [hpc] at this
  have hfree := h.unbusy hw hv
  have hlast := h.settled hfree
  have hword : unlocked (unlocked (copy Y.first).version ||| LOCK_BIT) =
      unlocked (s.node Y.first).version := by
    rw [unlocked_lock, hv]
  have hstamp := setWord_stamp (b := s.node) hword
  have hgrows : Grows s ({ s with
      node := Layout.setWord s.node (unlocked (copy Y.first).version ||| LOCK_BIT) }.setPc c
        (.locked copy)) :=
    ⟨fun _ _ h => h, fun l _ => Nat.le_of_eq (hstamp l).symm⟩
  have hpc' : ({ s with
      node := Layout.setWord s.node (unlocked (copy Y.first).version ||| LOCK_BIT) }.setPc c
        (.locked copy)).pc c = .locked copy := Function.update_self ..
  refine h.busyStep hgrows (fun c' _ => hfree c') (fun c' hc => Function.update_of_ne hc ..) h.numbered
    h.few (fun l hl => (h.node l hl).setWord hword) ?_ ?_ ?_
  · rw [hpc']
    refine ⟨hw.mono hgrows, ?_, fun l hl => ?_⟩
    · have hfirst := hlast Y.first Y.first_mem
      rw [Line.stamp, hv, unlocked_unlocked] at hfirst
      exact hfirst
    · exact (congrArg (· + 1) (hstamp l)).trans (hlast l hl)
  · rw [hpc']
    intro hb
    cases hb
  · intro _
    simpa [State.setPc, Layout.setWord] using toNat_lock (unlocked (copy Y.first).version)

lemma Inv.release {s : State Y C} (h : Inv s) {c : C} {copy : Y.Block}
    (hpc : s.pc c = .locked copy) :
    Inv ({ s with node := Layout.setWord s.node (unlocked (copy Y.first).version) }.setPc c
      .idle) := by
  have hbusy : (s.pc c).busy = true := by rw [hpc]; rfl
  have hok := h.pc c
  rw [hpc] at hok
  obtain ⟨hw, hcopy, hlast⟩ := hok
  have hword : unlocked (unlocked (copy Y.first).version) = unlocked (s.node Y.first).version := by
    have hfirst := hlast Y.first Y.first_mem
    rw [unlocked_unlocked]
    apply BitVec.eq_of_toNat_eq
    have : (copy Y.first).stamp = (s.node Y.first).stamp := by omega
    exact this
  have hstamp := setWord_stamp (b := s.node) hword
  have hpc' : ({ s with
      node := Layout.setWord s.node (unlocked (copy Y.first).version) }.setPc c .idle).pc c = .idle :=
    Function.update_self ..
  refine h.busyStep ⟨fun _ _ h => h, fun l _ => Nat.le_of_eq (hstamp l).symm⟩ ?_
    (fun c' hc => Function.update_of_ne hc ..) h.numbered h.few
    (fun l hl => (h.node l hl).setWord hword) ?_ ?_ ?_
  · intro c' hc
    by_contra hb
    exact hc (h.alone c' c (by simpa using hb) hbusy)
  · rw [hpc']
    trivial
  · intro _ l hl
    exact (congrArg (· + 1) (hstamp l)).trans (hlast l hl)
  · rw [hpc']
    intro hh
    cases hh

/-- The image of a write is of the next version on all lines. -/
lemma nextImage_version {s : State Y C} {copy : Y.Block} (hw : Whole s copy)
    (hi : Layout.incrementable copy = true) (data : (l : Y.L) → Y.D l) {n : ℕ}
    (hn : (copy Y.first).stamp = n) :
    n + 1 < 2 ^ 63 ∧ ∀ l ∈ Y.lines, (nextImage copy data l).version.toNat = n + 1 := by
  have hlimit : (~~~LOCK_BIT).toNat = 2 ^ 63 - 1 := by decide
  have hone : (1 : BitVec 64).toNat = 1 := rfl
  have hother : ∀ l ∈ Y.lines, l ≠ Y.first → (copy l).version.toNat = n ∧ n + 1 < 2 ^ 63 := by
    intro l hl hne
    obtain ⟨⟨image, -, -, hlt⟩, -⟩ := hw.fetched l hl
    have hstamp := (stamp_eq (hlt hne)).symm.trans ((hw.same l hl).trans hn)
    have hmax : (copy l).version ≠ ~~~LOCK_BIT := by
      have := List.all_eq_true.mp hi l hl
      simpa [hne] using this
    have hne' : (copy l).version.toNat ≠ 2 ^ 63 - 1 := by
      rw [← hlimit]
      exact fun h => hmax (BitVec.eq_of_toNat_eq h)
    have := hlt hne
    exact ⟨hstamp, by omega⟩
  obtain ⟨m, hm, hmne⟩ := Y.other
  have hfit := (hother m hm hmne).2
  refine ⟨hfit, fun l hl => ?_⟩
  by_cases hne : l = Y.first
  · subst hne
    have hfirst : (unlocked (copy Y.first).version).toNat = n := hn
    simp only [nextImage, Layout.increment, if_true]
    rw [BitVec.toNat_add, hfirst, hone]
    omega
  · have hl' := (hother l hl hne).1
    simp only [nextImage, Layout.increment, if_neg hne, Line.increment]
    rw [BitVec.toNat_add, hl', hone]
    omega

lemma getElem?_append_some {α : Type} {l : List α} {x y : α} {k : ℕ} (h : l[k]? = some x) :
    (l ++ [y])[k]? = some x := by
  obtain ⟨hk, -⟩ := List.getElem?_eq_some_iff.mp h
  rw [List.getElem?_append_left hk, h]

lemma Inv.write {s : State Y C} (h : Inv s) {c : C} {copy : Y.Block} (hpc : s.pc c = .locked copy)
    (hi : Layout.incrementable copy = true) (data : (l : Y.L) → Y.D l) :
    Inv ({ s with images := s.images ++ [nextImage copy data] }.setPc c
      (.storing (nextImage copy data) Y.lines)) := by
  have hbusy : (s.pc c).busy = true := by rw [hpc]; rfl
  have hok := h.pc c
  rw [hpc] at hok
  obtain ⟨hw, hcopy, hlast⟩ := hok
  obtain ⟨hfit, hnext⟩ := nextImage_version hw hi data rfl
  have hpc' : ({ s with images := s.images ++ [nextImage copy data] }.setPc c
      (.storing (nextImage copy data) Y.lines)).pc c = .storing (nextImage copy data) Y.lines :=
    Function.update_self ..
  refine h.busyStep (c := c) ⟨fun _ _ hk => getElem?_append_some hk, fun l _ => Nat.le_refl _⟩ ?_
    (fun c' hc => Function.update_of_ne hc ..) ?_ ?_
    (fun l hl => (h.node l hl).mono fun _ _ hk => getElem?_append_some hk) ?_ ?_ ?_
  · intro c' hc
    by_contra hb
    exact hc (h.alone c' c (by simpa using hb) hbusy)
  · intro k image hk l hl
    simp only [State.setPc] at hk
    rcases Nat.lt_trichotomy k s.images.length with hlt | rfl | hgt
    · rw [List.getElem?_append_left hlt] at hk
      exact h.numbered k image hk l hl
    · rw [List.getElem?_append_right (Nat.le_refl _), Nat.sub_self, List.getElem?_cons_zero,
        Option.some.injEq] at hk
      rw [← hk, hnext l hl, hcopy]
    · rw [List.getElem?_eq_none (by simp; omega)] at hk
      cases hk
  · simp only [State.setPc, List.length_append, List.length_singleton]
    omega
  · rw [hpc']
    refine ⟨List.ne_nil_of_mem Y.first_mem, List.Subset.refl _, by simp [State.setPc], ?_, ?_⟩
    · intro l hl
      have := hlast l hl
      simp only [State.setPc, List.length_append, List.length_singleton]
      omega
    · intro l hl hn
      exact absurd hl hn
  · rw [hpc']
    intro hb
    cases hb
  · intro _
    exact h.held c (by rw [hpc]; trivial)

lemma Inv.store {s : State Y C} (h : Inv s) {c : C} {l : Y.L} {image : Y.Block} {left : List Y.L}
    (hpc : s.pc c = .storing image left) (hl : l ∈ left) :
    Inv ({ s with node := Function.update s.node l (image l) }.setPc c
      (if left.filter (· ≠ l) = [] then .idle else .storing image (left.filter (· ≠ l)))) := by
  have hbusy : (s.pc c).busy = true := by rw [hpc]; rfl
  have hok := h.pc c
  rw [hpc] at hok
  obtain ⟨-, hsub, hlastImage, hbehind, hdone⟩ := hok
  have hindex : s.images[s.images.length - 1]? = some image := by
    rwa [← List.getLast?_eq_getElem?]
  have hversion := h.numbered _ _ hindex
  have hlate := hbehind l hl
  have hfew := h.few
  have hstamp : ∀ m ∈ Y.lines, (image m).stamp + 1 = s.images.length := by
    intro m hm
    have := hversion m hm
    rw [stamp_eq (by omega)]
    omega
  have hnode : ∀ m ∈ Y.lines, m ∈ left.filter (· ≠ l) ∨
      (Function.update s.node l (image l) m).stamp + 1 = s.images.length := by
    intro m hm
    by_cases hml : m = l
    · subst hml
      rw [Function.update_self]
      exact .inr (hstamp m hm)
    · rw [Function.update_of_ne hml]
      by_cases hmem : m ∈ left
      · exact .inl (by simp [hmem, hml])
      · exact .inr (hdone m hm hmem)
  have hgrows : Grows s ({ s with node := Function.update s.node l (image l) }.setPc c
      (if left.filter (· ≠ l) = [] then .idle else .storing image (left.filter (· ≠ l)))) := by
    refine ⟨fun _ _ h => h, fun m hm => ?_⟩
    by_cases hml : m = l
    · subst hml
      have := hstamp m hm
      simp only [State.setPc, Function.update_self]
      omega
    · simp [State.setPc, hml]
  have hpc' : ({ s with node := Function.update s.node l (image l) }.setPc c
      (if left.filter (· ≠ l) = [] then .idle else .storing image (left.filter (· ≠ l)))).pc c =
      if left.filter (· ≠ l) = [] then .idle else .storing image (left.filter (· ≠ l)) :=
    Function.update_self ..
  refine h.busyStep (c := c) hgrows ?_ (fun c' hc => Function.update_of_ne hc ..) h.numbered h.few ?_
    ?_ ?_ ?_
  · intro c' hc
    by_contra hb
    exact hc (h.alone c' c (by simpa using hb) hbusy)
  · intro m hm
    by_cases hml : m = l
    · subst hml
      simp only [State.setPc, Function.update_self]
      refine ⟨image, ?_, rfl, fun _ => ?_⟩
      · have := hstamp m hm
        rw [show (image m).stamp = s.images.length - 1 by omega]
        exact hindex
      · have := hversion m hm
        omega
    · simpa [State.setPc, hml] using h.node m hm
  · rw [hpc']
    split_ifs with hnil
    · trivial
    · refine ⟨hnil, fun m hm => hsub (List.mem_filter.mp hm).1, hlastImage, ?_, ?_⟩
      · intro m hm
        obtain ⟨hmem, hml⟩ := List.mem_filter.mp hm
        have hml : m ≠ l := by simpa using hml
        simpa [State.setPc, hml] using hbehind m hmem
      · intro m hm hn
        exact (hnode m hm).resolve_left hn
  · rw [hpc']
    split_ifs with hnil
    · intro _ m hm
      refine (hnode m hm).resolve_left ?_
      rw [hnil]
      exact List.not_mem_nil
    · intro hb
      cases hb
  · rw [hpc']
    split_ifs with hnil
    · intro hh
      cases hh
    · intro hh
      obtain ⟨hmem, hml⟩ := List.mem_filter.mp (show Y.first ∈ left.filter (· ≠ l) from hh)
      have hml : Y.first ≠ l := by simpa using hml
      have hold := h.held c (by rw [hpc]; exact hmem)
      simpa [State.setPc, hml] using hold

theorem inv_step {s s' : State Y C} {a : Act Y C} (h : Inv s) (hs : step degree s a = some s') :
    Inv s' := by
  cases moves_of_step hs with
  | read c behavior buffer hpc =>
    refine h.goto ?_ rfl ?_
    · rcases hpc with hpc | ⟨copy, hpc⟩ <;> rw [hpc] <;> rfl
    · intro l hl hn
      exact absurd hl hn
  | fetch c l behavior left copy hpc hl =>
    refine h.goto (by rw [hpc]; rfl) rfl ?_
    have hok := h.pc c
    rw [hpc] at hok
    intro m hm hn
    by_cases hml : m = l
    · subst hml
      rw [Function.update_self]
      exact ⟨h.node m hm, Nat.le_refl _⟩
    · rw [Function.update_of_ne hml]
      exact hok m hm fun hmem => hn (by simp [hmem, hml])
  | accept c behavior copy hpc ha =>
    refine h.goto (by rw [hpc]; rfl) rfl ?_
    have hok := h.pc c
    rw [hpc] at hok
    exact whole_of_accepts (fun l hl => hok l hl List.not_mem_nil) ha
  | reread c behavior copy hpc =>
    refine h.goto (by rw [hpc]; rfl) rfl fun l hl hn => absurd hl hn
  | acquire c copy hpc hv => exact h.acquire hpc hv
  | fail c copy hpc => exact h.goto (by rw [hpc]; rfl) rfl trivial
  | release c copy hpc => exact h.release hpc
  | write c data copy hpc hi => exact h.write hpc hi data
  | store c l image left hpc hl => exact h.store hpc hl

lemma inv_initial {s : State Y C} (h : Initial s) : Inv s := by
  obtain ⟨image, hzero, himages, hstart⟩ := h
  have hone : s.images[0]? = some image := by rw [himages]; rfl
  have hstamp : ∀ l, (image l).stamp = 0 := by
    intro l
    rw [Line.stamp, hzero]
    rfl
  have hof : ∀ l, Of s.images l (image l) := by
    intro l
    refine ⟨image, by rw [hstamp]; exact hone, rfl, fun _ => ?_⟩
    rw [hzero]
    decide
  have hnumbered : ∀ (k : ℕ) (b : Y.Block), s.images[k]? = some b →
      ∀ l ∈ Y.lines, (b l).version.toNat = k := by
    intro k b hk l _
    rw [himages] at hk
    obtain ⟨rfl, rfl⟩ : k = 0 ∧ image = b := by simpa [List.getElem?_singleton] using hk
    rw [hzero]
    rfl
  have hlength : s.images.length = 1 := by rw [himages]; rfl
  have hfew : s.images.length ≤ 2 ^ 63 := by omega
  have hword : unlocked LOCK_BIT = unlocked (image Y.first).version := by
    rw [hzero]
    decide
  rcases hstart with ⟨hnode, hpc⟩ | ⟨hnode, c, hpc, hidle⟩
  · have hbusy : ∀ c, (s.pc c).busy = false := by
      intro c
      rw [hpc c]
      rfl
    refine ⟨hnumbered, hfew, fun l _ => hnode ▸ hof l, fun c => hpc c ▸ trivial, ?_, ?_, ?_⟩
    · intro c c' hb
      rw [hbusy c] at hb
      cases hb
    · intro _ l _
      rw [hnode, hstamp, hlength]
    · intro c hh
      rw [hpc c] at hh
      cases hh
  · have hnodeStamp : ∀ l, (s.node l).stamp = 0 := by
      intro l
      rw [hnode, setWord_stamp hword, hstamp]
    have hself : ∀ c', (s.pc c').busy = true → c' = c := by
      intro c' hb
      by_contra hc
      rw [hidle c' hc] at hb
      cases hb
    refine ⟨hnumbered, hfew, fun l _ => hnode ▸ (hof l).setWord hword, fun c' => ?_, ?_, ?_, ?_⟩
    · by_cases hc : c' = c
      · rw [hc, hpc]
        refine ⟨⟨fun l _ => ⟨hof l, ?_⟩, fun l _ => ?_⟩, ?_, fun l _ => ?_⟩
        · exact Nat.le_of_eq (by rw [hstamp, hnodeStamp])
        · rw [hstamp, hstamp]
        · rw [hstamp, hlength]
        · rw [hnodeStamp, hlength]
      · rw [hidle c' hc]
        trivial
    · intro c' c'' hb hb'
      rw [hself c' hb, hself c'' hb']
    · intro hno
      have := hno c
      rw [hpc] at this
      cases this
    · intro c' _
      rw [hnode]
      simp [Layout.setWord, LOCK_BIT]

/-- All lines of the copy are those of one image. -/
def OneVersion (s : State Y C) (copy image : Y.Block) : Prop :=
  image ∈ s.images ∧ ∀ l ∈ Y.lines,
    (copy l).data = (image l).data ∧ unlocked (copy l).version = (image l).version

lemma Whole.oneVersion {s : State Y C} {copy : Y.Block} (hw : Whole s copy) (h : Inv s) :
    ∃ image, OneVersion s copy image := by
  obtain ⟨⟨image, him, -⟩, -⟩ := hw.fetched Y.first Y.first_mem
  refine ⟨image, List.mem_of_getElem? him, fun l hl => ?_⟩
  obtain ⟨⟨image', him', hdata, -⟩, -⟩ := hw.fetched l hl
  have hsame := hw.same l hl
  rw [hsame, him, Option.some.injEq] at him'
  subst him'
  refine ⟨hdata, BitVec.eq_of_toNat_eq ?_⟩
  rw [h.numbered _ image him l hl, ← hsame]
  rfl

theorem oneVersion_of_returned {s : State Y C} (h : (machine Y C degree).Reachable s) {c : C}
    {copy : Y.Block} (hpc : s.pc c = .returned copy) : ∃ image, OneVersion s copy image := by
  have hinv : Inv s := h.invariant (fun _ => inv_initial) fun _ _ _ => inv_step
  have hok := hinv.pc c
  rw [hpc] at hok
  exact Whole.oneVersion hok hinv

end ObjectCache.Btree
