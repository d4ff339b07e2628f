import ObjectCache.Btree.Lines
import ObjectCache.Sherman.Node

/-! Reading past a lock: what `is_valid(true)` answers for the blocks of `RdmaBPTree` and of
`ShermanBPTree`, and what `increment_version` makes of a block it accepts. -/

namespace ObjectCache.Sherman

open Btree

/-- Room for values in the tail line, next to the delete mark. -/
def HLINE_SIZE (size : ℕ) : ℕ := 32 / size

variable {A V : Type}

namespace BNode

def isValid (degree : ℕ) (n : BNode A) (ignore_lock : Bool) : Bool :=
  if n.is_deleted then false
  else
    let base := base (n.key_version 0) ignore_lock
    allAt 0 (KLINES degree) n.key_version base && allAt 0 (PLINES degree) n.ptr_version base &&
      n.fency_version = base

def version (n : BNode A) : BitVec 64 := unlocked (n.key_version 0)

end BNode

namespace BLeaf

def isValid (degree size : ℕ) (l : BLeaf A V) (ignore_lock : Bool) : Bool :=
  if l.is_deleted then false
  else
    let base := base (l.key_version 0) ignore_lock
    allAt 1 (KLINES degree) l.key_version base &&
      allAt 0 (VLINES degree size (HLINE_SIZE size)) l.value_version base && l.last_version = base

def version (l : BLeaf A V) : BitVec 64 := unlocked (l.key_version 0)

end BLeaf

/-- A block of one of the two trees. -/
inductive Block (A V : Type) where
  | node (n : Btree.BNode A)
  | leaf (l : Btree.BLeaf A V)
  | shermanNode (n : BNode A)
  | shermanLeaf (l : BLeaf A V)

namespace Block

def ofLeaf : Block A V → Bool
  | .node _ | .shermanNode _ => false
  | .leaf _ | .shermanLeaf _ => true

def isDeleted : Block A V → Bool
  | node _ | leaf _ => false
  | shermanNode n => n.is_deleted
  | shermanLeaf l => l.is_deleted

def isValid (degree size : ℕ) : Block A V → Bool → Bool
  | node n => n.isValid degree
  | leaf l => l.isValid degree size
  | shermanNode n => n.isValid degree
  | shermanLeaf l => l.isValid degree size

def version : Block A V → BitVec 64
  | node n => n.version
  | leaf l => l.version
  | shermanNode n => n.version
  | shermanLeaf l => l.version

def incrementVersion : Block A V → Block A V
  | node n => node n.incrementVersion
  | leaf l => leaf l.incrementVersion
  | shermanNode n => shermanNode n.incrementVersion
  | shermanLeaf l => shermanLeaf l.incrementVersion

/-- The version word of the first line. -/
def word : Block A V → BitVec 64
  | node n => (n.key_lines 0).version
  | leaf l => (l.key_lines 0).version
  | shermanNode n => n.key_version 0
  | shermanLeaf l => l.key_version 0

/-- The block with another version word in its first line. -/
def withWord (w : BitVec 64) : Block A V → Block A V
  | node n => node { n with
      key_lines := Function.update n.key_lines 0 { n.key_lines 0 with version := w } }
  | leaf l => leaf { l with
      key_lines := Function.update l.key_lines 0 { l.key_lines 0 with version := w } }
  | shermanNode n => shermanNode { n with key_version := Function.update n.key_version 0 w }
  | shermanLeaf l => shermanLeaf { l with key_version := Function.update l.key_version 0 w }

/-- The versions of the lines behind the first. -/
def others (degree size : ℕ) : Block A V → List (BitVec 64)
  | node n =>
    (List.range' 1 (KLINES degree - 1)).map (fun i => (n.key_lines i).version) ++
      (List.range (PLINES degree)).map fun i => (n.ptr_lines i).version
  | leaf l =>
    (List.range' 1 (KLINES degree - 1)).map (fun i => (l.key_lines i).version) ++
      (List.range (VLINES degree size (Btree.HLINE_SIZE size))).map
        (fun i => (l.value_lines i).version) ++ [l.last_line.version]
  | shermanNode n =>
    (List.range' 1 (KLINES degree - 1)).map n.key_version ++
      (List.range (PLINES degree)).map n.ptr_version ++ [n.fency_version]
  | shermanLeaf l =>
    (List.range' 1 (KLINES degree - 1)).map l.key_version ++
      (List.range (VLINES degree size (HLINE_SIZE size))).map l.value_version ++ [l.last_version]

/-- Every line has the version of the first line, which is taken without the lock bit. -/
def Agrees (degree size : ℕ) (b : Block A V) : Prop := ∀ v ∈ b.others degree size, v = b.version

/-- What reading past a lock is for. -/
structure ReadsPastLock (degree size : ℕ) (b : Block A V) : Prop where
  lock : b.isValid degree size true = (b.withWord (unlocked b.word)).isValid degree size true
  valid : b.isValid degree size true = true ↔ b.Agrees degree size
  unlocks : b.isValid degree size true = true → b.incrementVersion.isValid degree size false = true
  grows : b.isValid degree size true = true → b.version.toNat < 2 ^ 63 - 1 →
    b.incrementVersion.version.toNat = b.version.toNat + 1

variable {degree size : ℕ}

/-- `is_valid` compares the first line with the base only in an inner node. -/
lemma isValid_iff {b : Block A V} (hb : b.isDeleted = false) (ignore_lock : Bool) :
    b.isValid degree size ignore_lock = true ↔
      (b.ofLeaf = true ∨ b.word = base b.word ignore_lock) ∧
        ∀ v ∈ b.others degree size, v = base b.word ignore_lock := by
  have hkeys : ∀ version : ℕ → BitVec 64, ∀ base, allAt 0 (KLINES degree) version base = true ↔
      version 0 = base ∧ ∀ v ∈ (List.range' 1 (KLINES degree - 1)).map version, v = base := by
    intro version base
    have hpos := KLINES_pos degree
    simp only [allAt_eq_true, List.forall_mem_map, List.mem_range'_1]
    constructor
    · intro h
      exact ⟨h 0 (Nat.le_refl 0) hpos, fun i hi => h i (Nat.zero_le i) (by omega)⟩
    · rintro ⟨h0, h⟩ i - hi
      rcases Nat.eq_zero_or_pos i with rfl | hpos
      · exact h0
      · exact h i ⟨hpos, by omega⟩
  have hrest : ∀ lo hi, ∀ version : ℕ → BitVec 64, ∀ base, allAt lo hi version base = true ↔
      ∀ v ∈ (List.range' lo (hi - lo)).map version, v = base := by
    intro lo hi version base
    simp only [allAt, List.all_eq_true, decide_eq_true_eq, List.forall_mem_map]
  cases b with
  | node n =>
    simp only [isValid, Btree.BNode.isValid, Bool.and_eq_true, hkeys, hrest, others, word, ofLeaf,
      List.forall_mem_append, List.range_eq_range', Nat.sub_zero, Bool.false_eq_true, false_or,
      and_assoc]
  | leaf l =>
    simp only [isValid, Btree.BLeaf.isValid, Bool.and_eq_true, hrest, others, word, ofLeaf,
      List.forall_mem_append, List.forall_mem_singleton, List.range_eq_range', Nat.sub_zero,
      decide_eq_true_eq, true_or, true_and]
  | shermanNode n =>
    simp only [isDeleted] at hb
    simp only [isValid, BNode.isValid, hb, Bool.and_eq_true, hkeys, hrest, others, word, ofLeaf,
      List.forall_mem_append, List.forall_mem_singleton, List.range_eq_range', Nat.sub_zero,
      decide_eq_true_eq, Bool.false_eq_true, if_false, false_or, and_assoc]
  | shermanLeaf l =>
    simp only [isDeleted] at hb
    simp only [isValid, BLeaf.isValid, hb, Bool.and_eq_true, hrest, others, word, ofLeaf,
      List.forall_mem_append, List.forall_mem_singleton, List.range_eq_range', Nat.sub_zero,
      decide_eq_true_eq, Bool.false_eq_true, if_false, true_or, true_and]

lemma version_eq (b : Block A V) : b.version = unlocked b.word := by
  cases b <;> rfl

lemma word_withWord (w : BitVec 64) (b : Block A V) : (b.withWord w).word = w := by
  cases b <;> simp [withWord, word]

lemma isDeleted_withWord (w : BitVec 64) (b : Block A V) :
    (b.withWord w).isDeleted = b.isDeleted := by
  cases b <;> rfl

lemma ofLeaf_withWord (w : BitVec 64) (b : Block A V) : (b.withWord w).ofLeaf = b.ofLeaf := by
  cases b <;> rfl

lemma map_behind_first {α : Type} {n : ℕ} {f g : ℕ → α} (h : ∀ i, 1 ≤ i → f i = g i) :
    (List.range' 1 n).map f = (List.range' 1 n).map g :=
  List.map_congr_left fun i hi => h i (List.mem_range'_1.mp hi).1

lemma others_withWord (w : BitVec 64) (b : Block A V) :
    (b.withWord w).others degree size = b.others degree size := by
  have hne : ∀ i, 1 ≤ i → i ≠ 0 := fun i hi => by omega
  cases b with
  | node n | leaf l =>
    simp only [withWord, others]
    rw [map_behind_first fun i hi => by rw [Function.update_of_ne (hne i hi)]]
  | shermanNode n | shermanLeaf l =>
    simp only [withWord, others]
    rw [map_behind_first fun i hi => by rw [Function.update_of_ne (hne i hi)]]

lemma word_incrementVersion (b : Block A V) : b.incrementVersion.word = unlocked b.word + 1 := by
  cases b <;> rfl

lemma isDeleted_incrementVersion (b : Block A V) :
    b.incrementVersion.isDeleted = b.isDeleted := by
  cases b <;> rfl

lemma others_incrementVersion (b : Block A V) :
    b.incrementVersion.others degree size = (b.others degree size).map (· + 1) := by
  have hne : ∀ i, 1 ≤ i → i ≠ 0 := fun i hi => by omega
  cases b with
  | node n | leaf l =>
    simp only [incrementVersion, others, Btree.BNode.incrementVersion, Btree.BLeaf.incrementVersion,
      List.map_append, List.map_map, List.map_cons, List.map_nil]
    rw [map_behind_first fun i hi => by rw [incrementKeys, if_neg (hne i hi)]]
    rfl
  | shermanNode n | shermanLeaf l =>
    simp only [incrementVersion, others, BNode.incrementVersion, BLeaf.incrementVersion,
      List.map_append, List.map_map, List.map_cons, List.map_nil]
    rw [map_behind_first fun i hi => by rw [incrementFirst, if_neg (hne i hi)]]
    rfl

/-- What `is_valid(true)` accepts are the agreeing blocks, and of the inner nodes only those whose
lock bit is clear. -/
lemma isValid_true_iff {b : Block A V} (hb : b.isDeleted = false) :
    b.isValid degree size true = true ↔
      (b.ofLeaf = true ∨ b.word = unlocked b.word) ∧ b.Agrees degree size := by
  rw [isValid_iff hb, Agrees, version_eq]
  rfl

lemma isValid_incrementVersion {b : Block A V} (hb : b.isDeleted = false)
    (h : b.Agrees degree size) : b.incrementVersion.isValid degree size false = true := by
  rw [isValid_iff (by rw [isDeleted_incrementVersion, hb])]
  refine ⟨.inr rfl, fun v hv => ?_⟩
  rw [others_incrementVersion] at hv
  obtain ⟨w, hw, rfl⟩ := List.mem_map.mp hv
  rw [h w hw, version_eq, base, word_incrementVersion]
  rfl

lemma version_incrementVersion {b : Block A V} (h : b.version.toNat < 2 ^ 63 - 1) :
    b.incrementVersion.version.toNat = b.version.toNat + 1 := by
  rw [version_eq] at h
  have hsucc : (unlocked b.word + 1).toNat = (unlocked b.word).toNat + 1 := by
    have hone : (1 : BitVec 64).toNat = 1 := rfl
    have hlt := toNat_unlocked_lt b.word
    rw [BitVec.toNat_add, hone, Nat.mod_eq_of_lt (by omega)]
  rw [version_eq, version_eq, word_incrementVersion, toNat_unlocked, hsucc, Nat.mod_eq_of_lt]
  omega

/-- Reading past a lock works just for leaves, for inner nodes that are not locked and for blocks
that are torn anyway. -/
theorem readsPastLock_iff (degree size : ℕ) (b : Block A V) (hb : b.isDeleted = false) :
    b.ReadsPastLock degree size ↔
      b.ofLeaf = true ∨ unlocked b.word = b.word ∨ ¬ b.Agrees degree size := by
  have hunlocked : (b.withWord (unlocked b.word)).isValid degree size true = true ↔
      b.Agrees degree size := by
    rw [isValid_true_iff (by rw [isDeleted_withWord, hb]), word_withWord, unlocked_unlocked, Agrees,
      others_withWord, version_eq, word_withWord, unlocked_unlocked, ← version_eq]
    simp [Agrees]
  have hvalid : b.isValid degree size true = true ↔
      (b.ofLeaf = true ∨ b.word = unlocked b.word) ∧ b.Agrees degree size := isValid_true_iff hb
  constructor
  · intro h
    by_contra hno
    simp only [not_or, not_not] at hno
    obtain ⟨hleaf, hlock, hagrees⟩ := hno
    rcases (hvalid.mp (h.valid.mpr hagrees)).1 with hl | hl
    · exact hleaf hl
    · exact hlock hl.symm
  · intro h
    have hv : b.isValid degree size true = true ↔ b.Agrees degree size := by
      rw [hvalid]
      constructor
      · exact fun hv => hv.2
      · intro ha
        refine ⟨?_, ha⟩
        rcases h with hl | hl | hl
        · exact .inl hl
        · exact .inr hl.symm
        · exact absurd ha hl
    refine ⟨?_, hv, fun h => isValid_incrementVersion hb (hv.mp h), fun _ => version_incrementVersion⟩
    rw [Bool.eq_iff_iff, hv, hunlocked]

/-! ### A locked inner node -/

/-- A node of three keys as `try_acquire` leaves it. -/
def lockedNode : Block ℕ ℤ :=
  node ⟨fun i => ⟨if i = 0 then LOCK_BIT else 0, fun _ => SENTINEL⟩, fun _ => ⟨0, fun _ => none⟩⟩

def lockedLeaf : Block ℕ ℤ :=
  leaf ⟨fun i => ⟨if i = 0 then LOCK_BIT else 0, fun _ => SENTINEL⟩, fun _ => ⟨0, fun _ => 0⟩,
    ⟨0, fun _ => 0, INT_MIN, SENTINEL, none⟩⟩

theorem readsPastLock_lockedLeaf : lockedLeaf.ReadsPastLock 1 8 :=
  (readsPastLock_iff 1 8 lockedLeaf rfl).mpr (.inl rfl)

theorem not_readsPastLock_lockedNode :
    ¬ ∀ b : Block ℕ ℤ, b.isDeleted = false → b.ReadsPastLock 1 8 := by
  intro h
  exact absurd (h lockedNode rfl).lock (by decide)

end Block
end ObjectCache.Sherman
