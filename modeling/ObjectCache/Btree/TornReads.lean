import ObjectCache.Btree.LineWrites

/-! Torn reads of `RdmaBPTree`: what `reliable_read` returns are the lines of one version of a `BNode`
or a `BLeaf`. -/

namespace ObjectCache.Btree

open Lib

set_option linter.unusedSectionVars false

variable {A V C : Type} [DecidableEq C]

/-! ### Inner nodes -/

inductive NodeLine where
  | key (i : ℕ)
  | ptr (i : ℕ)
deriving DecidableEq

def NodeLine.Data (A : Type) : NodeLine → Type
  | .key _ => Slots Key
  | .ptr _ => Slots (Option A)

namespace BNode

def ofLines (b : (l : NodeLine) → Line (l.Data A)) : BNode A where
  key_lines i := b (.key i)
  ptr_lines i := b (.ptr i)

def ptrAt (n : BNode A) (index : ℕ) : Option A :=
  (n.ptr_lines (index / PLINE_SIZE)).data (index % PLINE_SIZE)

end BNode

lemma PLINES_pos (degree : ℕ) : 0 < PLINES degree := by
  simp only [PLINES, PLINE_SIZE]
  omega

def nodeLines (degree : ℕ) : List NodeLine :=
  (List.range (KLINES degree)).map .key ++ (List.range (PLINES degree)).map .ptr

lemma mem_nodeLines {degree : ℕ} {l : NodeLine} : l ∈ nodeLines degree ↔
    (∃ i < KLINES degree, l = .key i) ∨ ∃ i < PLINES degree, l = .ptr i := by
  simp [nodeLines, eq_comm]

lemma BNode.version_of_isValid {degree : ℕ} (b : (l : NodeLine) → Line (l.Data A))
    (ignore_lock : Bool) (h : (BNode.ofLines b).isValid degree ignore_lock = true)
    (l : NodeLine) (hl : l ∈ nodeLines degree) :
    (b l).version = base (b (.key 0)).version ignore_lock := by
  simp only [BNode.isValid, Bool.and_eq_true, allAt_eq_true] at h
  rcases mem_nodeLines.mp hl with ⟨i, hi, rfl⟩ | ⟨i, hi, rfl⟩
  · exact h.1 i (Nat.zero_le _) hi
  · exact h.2 i (Nat.zero_le _) hi

def nodeLayout (A : Type) (degree : ℕ) : Layout where
  L := NodeLine
  D := NodeLine.Data A
  lines := nodeLines degree
  first := .key 0
  first_mem := mem_nodeLines.mpr (.inl ⟨0, KLINES_pos degree, rfl⟩)
  other := ⟨.ptr 0, mem_nodeLines.mpr (.inr ⟨0, PLINES_pos degree, rfl⟩), by simp⟩
  key_at b := (BNode.ofLines b).keyAt
  is_valid b := (BNode.ofLines b).isValid degree
  valid_eq b ignore_lock h l hl _ := BNode.version_of_isValid b ignore_lock h l hl

/-- The increment of the lines is `increment_version`. -/
lemma BNode.ofLines_increment (degree : ℕ) (b : (nodeLayout A degree).Block) :
    BNode.ofLines (Layout.increment b) = (BNode.ofLines b).incrementVersion := by
  apply BNode.ext
  · funext i
    by_cases hi : i = 0
    · subst hi
      rfl
    · have hne : NodeLine.key i ≠ NodeLine.key 0 := by simpa using hi
      simp only [BNode.ofLines, BNode.incrementVersion, incrementKeys, if_neg hi, Layout.increment]
      exact if_neg hne
  · funext i
    have hne : NodeLine.ptr i ≠ NodeLine.key 0 := by simp
    simp only [BNode.ofLines, BNode.incrementVersion, Layout.increment]
    exact if_neg hne

/-- Two inner nodes hold the same keys and pointers. -/
def BNode.SameContent (degree : ℕ) (n m : BNode A) : Prop :=
  (∀ i < SIZE degree, n.keyAt i = m.keyAt i) ∧ ∀ i ≤ SIZE degree, n.ptrAt i = m.ptrAt i

lemma KLINES_of_lt {degree i : ℕ} (h : i < SIZE degree) : i / KLINE_SIZE < KLINES degree := by
  simp only [KLINES, KLINE_SIZE]
  omega

lemma BNode.sameContent {degree : ℕ} {n m : (nodeLayout A degree).Block}
    (h : ∀ l ∈ nodeLines degree, (n l).data = (m l).data) :
    (BNode.ofLines n).SameContent degree (BNode.ofLines m) := by
  refine ⟨fun i hi => ?_, fun i hi => ?_⟩
  · have hline := h (.key (i / KLINE_SIZE)) (mem_nodeLines.mpr (.inl ⟨_, KLINES_of_lt hi, rfl⟩))
    exact congrFun hline _
  · have hlt : i / PLINE_SIZE < PLINES degree := by
      simp only [PLINES, PLINE_SIZE]
      omega
    have hline := h (.ptr (i / PLINE_SIZE)) (mem_nodeLines.mpr (.inr ⟨_, hlt, rfl⟩))
    exact congrFun hline _

/-! ### Leaves -/

inductive LeafLine where
  | key (i : ℕ)
  | value (i : ℕ)
  | last
deriving DecidableEq

def LeafLine.Data (A V : Type) : LeafLine → Type
  | .key _ => Slots Key
  | .value _ => Slots V
  | .last => Tail A V

namespace BLeaf

def ofLines (b : (l : LeafLine) → Line (l.Data A V)) : BLeaf A V where
  key_lines i := b (.key i)
  value_lines i := b (.value i)
  last_line := b .last

/-- For values of `size` bytes. -/
def valueAt (degree size : ℕ) (l : BLeaf A V) (index : ℕ) : V :=
  if VLINES degree size (HLINE_SIZE size) ≤ index / VLINE_SIZE size then
    l.last_line.data.values (index % VLINE_SIZE size)
  else (l.value_lines (index / VLINE_SIZE size)).data (index % VLINE_SIZE size)

def key_low (l : BLeaf A V) : Key := l.last_line.data.key_low

def key_high (l : BLeaf A V) : Key := l.last_line.data.key_high

def get_next (l : BLeaf A V) : Option A := l.last_line.data.next

end BLeaf

def leafLines (degree size : ℕ) : List LeafLine :=
  .last :: (List.range (KLINES degree)).map .key ++
    (List.range (VLINES degree size (HLINE_SIZE size))).map .value

lemma mem_leafLines {degree size : ℕ} {l : LeafLine} : l ∈ leafLines degree size ↔ l = .last ∨
    (∃ i < KLINES degree, l = .key i) ∨
      ∃ i < VLINES degree size (HLINE_SIZE size), l = .value i := by
  simp [leafLines, eq_comm]

lemma BLeaf.version_of_isValid {degree size : ℕ} (b : (l : LeafLine) → Line (l.Data A V))
    (ignore_lock : Bool) (h : (BLeaf.ofLines b).isValid degree size ignore_lock = true)
    (l : LeafLine) (hl : l ∈ leafLines degree size) (hne : l ≠ .key 0) :
    (b l).version = base (b (.key 0)).version ignore_lock := by
  simp only [BLeaf.isValid, Bool.and_eq_true, allAt_eq_true, decide_eq_true_eq] at h
  obtain ⟨⟨hkeys, hvalues⟩, hlast⟩ := h
  rcases mem_leafLines.mp hl with rfl | ⟨i, hi, rfl⟩ | ⟨i, hi, rfl⟩
  · exact hlast
  · have hpos : i ≠ 0 := fun hi => hne (by rw [hi])
    exact hkeys i (by omega) hi
  · exact hvalues i (Nat.zero_le _) hi

def leafLayout (A V : Type) (degree size : ℕ) : Layout where
  L := LeafLine
  D := LeafLine.Data A V
  lines := leafLines degree size
  first := .key 0
  first_mem := mem_leafLines.mpr (.inr (.inl ⟨0, KLINES_pos degree, rfl⟩))
  other := ⟨.last, mem_leafLines.mpr (.inl rfl), by simp⟩
  key_at b := (BLeaf.ofLines b).keyAt
  is_valid b := (BLeaf.ofLines b).isValid degree size
  valid_eq := BLeaf.version_of_isValid

lemma BLeaf.ofLines_increment (degree size : ℕ) (b : (leafLayout A V degree size).Block) :
    BLeaf.ofLines (Layout.increment b) = (BLeaf.ofLines b).incrementVersion := by
  apply BLeaf.ext
  · funext i
    by_cases hi : i = 0
    · subst hi
      rfl
    · have hne : LeafLine.key i ≠ LeafLine.key 0 := by simpa using hi
      simp only [BLeaf.ofLines, BLeaf.incrementVersion, incrementKeys, if_neg hi, Layout.increment]
      exact if_neg hne
  · funext i
    have hne : LeafLine.value i ≠ LeafLine.key 0 := by simp
    simp only [BLeaf.ofLines, BLeaf.incrementVersion, Layout.increment]
    exact if_neg hne
  · have hne : LeafLine.last ≠ LeafLine.key 0 := by simp
    simp only [BLeaf.ofLines, BLeaf.incrementVersion, Layout.increment]
    exact if_neg hne

/-- Two leaves hold the same keys, values, range and successor. -/
def BLeaf.SameContent (degree size : ℕ) (l m : BLeaf A V) : Prop :=
  (∀ i < SIZE degree, l.keyAt i = m.keyAt i) ∧
    (∀ i < SIZE degree, l.valueAt degree size i = m.valueAt degree size i) ∧
    l.key_low = m.key_low ∧ l.key_high = m.key_high ∧ l.get_next = m.get_next

lemma BLeaf.sameContent {degree size : ℕ} {l m : (leafLayout A V degree size).Block}
    (h : ∀ k ∈ leafLines degree size, (l k).data = (m k).data) :
    (BLeaf.ofLines l).SameContent degree size (BLeaf.ofLines m) := by
  have hlast : (l .last).data = (m .last).data := h .last (mem_leafLines.mpr (.inl rfl))
  refine ⟨fun i hi => ?_, fun i _ => ?_, congrArg Tail.key_low hlast, congrArg Tail.key_high hlast,
    congrArg Tail.next hlast⟩
  · have hline := h (.key (i / KLINE_SIZE))
      (mem_leafLines.mpr (.inr (.inl ⟨_, KLINES_of_lt hi, rfl⟩)))
    exact congrFun hline _
  · simp only [BLeaf.valueAt]
    split_ifs with hi
    · exact congrFun (congrArg Tail.values hlast) _
    · have hline := h (.value (i / VLINE_SIZE size))
        (mem_leafLines.mpr (.inr (.inr ⟨_, Nat.lt_of_not_le hi, rfl⟩)))
      exact congrFun hline _

/-! ### What `reliable_read` returns -/

/-- The copies of the inner nodes and of the leaves that `reliable_read` returns are whole. -/
theorem reliable_read_whole (degree size : ℕ) :
    (∀ (s : State (nodeLayout A degree) C) (c : C) (copy : (nodeLayout A degree).Block),
      (machine (nodeLayout A degree) C degree).Reachable s → s.pc c = .returned copy →
      ∃ image, OneVersion s copy image ∧
        (BNode.ofLines copy).SameContent degree (BNode.ofLines image)) ∧
    ∀ (s : State (leafLayout A V degree size) C) (c : C) (copy : (leafLayout A V degree size).Block),
      (machine (leafLayout A V degree size) C degree).Reachable s → s.pc c = .returned copy →
      ∃ image, OneVersion s copy image ∧
        (BLeaf.ofLines copy).SameContent degree size (BLeaf.ofLines image) := by
  refine ⟨fun s c copy h hpc => ?_, fun s c copy h hpc => ?_⟩
  · obtain ⟨image, himage⟩ := oneVersion_of_returned h hpc
    exact ⟨image, himage, BNode.sameContent fun l hl => (himage.2 l hl).1⟩
  · obtain ⟨image, himage⟩ := oneVersion_of_returned h hpc
    exact ⟨image, himage, BLeaf.sameContent fun l hl => (himage.2 l hl).1⟩

/-! ### A read after a write -/

def State.hasReturned {Y : Layout} (s : State Y C) (c : C) : Bool :=
  match s.pc c with
  | .returned _ => true
  | _ => false

lemma State.exists_returned {Y : Layout} {s : State Y C} {c : C} (h : s.hasReturned c = true) :
    ∃ copy, s.pc c = .returned copy := by
  cases hpc : s.pc c <;> simp_all [State.hasReturned]

/-- A client fetches both lines of a small block. -/
def readBoth {Y : Layout} (c : Bool) (l m : Y.L) (buffer : Y.Block) : List (Act Y Bool) :=
  [.read c .WILL_NEED_ACQUIRE buffer, .fetch c l, .fetch c m, .check c]

/-- One client reads a block, locks it and stores the next version; the other reads it then. -/
def readAfterWrite {Y : Layout} (l m : Y.L) (buffer : Y.Block) (data : (l : Y.L) → Y.D l) :
    List (Act Y Bool) :=
  readBoth false l m buffer ++ [.acquire false, .write false data, .store false m, .store false l] ++
    readBoth true m l buffer

def zeroNode : (nodeLayout Unit 1).Block
  | .key _ => ⟨0, fun _ => SENTINEL⟩
  | .ptr _ => ⟨0, fun _ => none⟩

def zeroLeaf : (leafLayout Unit ℕ 1 8).Block
  | .key _ => ⟨0, fun _ => SENTINEL⟩
  | .value _ => ⟨0, fun _ => 0⟩
  | .last => ⟨0, fun _ => 0, INT_MIN, SENTINEL, none⟩

def freshState {Y : Layout} (b : Y.Block) : State Y Bool := ⟨b, [b], fun _ => .idle⟩

def nodeActs : List (Act (nodeLayout Unit 1) Bool) :=
  readAfterWrite (.key 0) (.ptr 0) zeroNode fun l =>
    match l with
    | .key _ => fun i => if i = 0 then 7 else SENTINEL
    | .ptr _ => fun _ => some ()

def leafActs : List (Act (leafLayout Unit ℕ 1 8) Bool) :=
  readAfterWrite (.key 0) .last zeroLeaf fun l =>
    match l with
    | .key _ => fun i => if i = 0 then 7 else SENTINEL
    | .value _ => fun _ => 0
    | .last => ⟨fun _ => 9, INT_MIN, SENTINEL, none⟩

instance {Y : Layout} : Inhabited (Act Y Bool) := ⟨.check false⟩

lemma initial_freshState {Y : Layout} {b : Y.Block} (h : ∀ l, (b l).version = 0) :
    Initial (freshState b) :=
  ⟨b, h, rfl, .inl ⟨rfl, fun _ => rfl⟩⟩

def nodeRun : (machine (nodeLayout Unit 1) Bool 1).Run :=
  .ofActs _ (freshState zeroNode) nodeActs (initial_freshState fun l => by cases l <;> rfl)
    (by decide +kernel)

def leafRun : (machine (leafLayout Unit ℕ 1 8) Bool 1).Run :=
  .ofActs _ (freshState zeroLeaf) leafActs (initial_freshState fun l => by cases l <;> rfl)
    (by decide +kernel)

theorem reliable_read_whole_after_write :
    (∃ copy image, (nodeRun.state 12).pc true = .returned copy ∧
      OneVersion (nodeRun.state 12) copy image) ∧
    ∃ copy image, (leafRun.state 12).pc true = .returned copy ∧
      OneVersion (leafRun.state 12) copy image := by
  obtain ⟨node, hnode⟩ := State.exists_returned (s := nodeRun.state 12) (c := true) (by decide +kernel)
  obtain ⟨leaf, hleaf⟩ := State.exists_returned (s := leafRun.state 12) (c := true) (by decide +kernel)
  have hwhole := reliable_read_whole (A := Unit) (V := ℕ) (C := Bool) 1 8
  obtain ⟨image, himage, -⟩ := hwhole.1 _ true node (nodeRun.reachable 12 (by decide)) hnode
  obtain ⟨image', himage', -⟩ := hwhole.2 _ true leaf (leafRun.reachable 12 (by decide)) hleaf
  exact ⟨⟨node, image, hnode, himage⟩, leaf, image', hleaf, himage'⟩

end ObjectCache.Btree
