import ObjectCache.Lib.Writes
import ObjectCache.Sherman.Validity

/-! Where the slots of the nodes and leaves of `RdmaBPTree` and of `ShermanBPTree` are: an index is a line
and a position on it, or a position on the tail line of a leaf. -/

namespace ObjectCache.Sherman.SlotLines

open Btree Lib

/-- The two trees. -/
inductive Tree where
  | rdmaBP
  | sherman
  deriving DecidableEq

/-- The bytes of the tail line for values. -/
def Tree.room : Tree → ℕ
  | .rdmaBP => 40
  | .sherman => 32

def Tree.HLINE_SIZE : Tree → ℕ → ℕ
  | .rdmaBP => Btree.HLINE_SIZE
  | .sherman => Sherman.HLINE_SIZE

/-- `VLINES` of the leaves of a tree. -/
def Tree.VLINES (t : Tree) (degree size : ℕ) : ℕ := Btree.VLINES degree size (t.HLINE_SIZE size)

inductive Place where
  | line (line position : ℕ)
  | tail (position : ℕ)
  deriving DecidableEq

def keyPlace (index : ℕ) : Place := .line (index / KLINE_SIZE) (index % KLINE_SIZE)

def ptrPlace (index : ℕ) : Place := .line (index / PLINE_SIZE) (index % PLINE_SIZE)

def valuePlace (t : Tree) (degree size index : ℕ) : Place :=
  if index / VLINE_SIZE size ≥ t.VLINES degree size then .tail (index % VLINE_SIZE size)
  else .line (index / VLINE_SIZE size) (index % VLINE_SIZE size)

/-- The place is within `count` lines of `width` slots and a tail of `room` slots. -/
def Place.Within (count width room : ℕ) : Place → Prop
  | .line l position => l < count ∧ position < width
  | .tail position => position < room

instance (count width room : ℕ) : (place : Place) → Decidable (place.Within count width room)
  | .line l position => decidable_of_iff (l < count ∧ position < width) Iff.rfl
  | .tail position => decidable_of_iff (position < room) Iff.rfl

/-- The lines of a block that hold one kind of slots, with the tail line of a leaf. -/
structure Area (α : Type) where
  lines : ℕ → Line (Slots α)
  last_line : Line (Slots α)

variable {α A V R : Type}

def Area.get (a : Area α) : Place → α
  | .line l position => (a.lines l).data position
  | .tail position => a.last_line.data position

def Area.set (a : Area α) (x : α) : Place → Area α
  | .line l position =>
    let written : Line (Slots α) := { a.lines l with data := Function.update (a.lines l).data position x }
    { a with lines := Function.update a.lines l written }
  | .tail position =>
    { a with last_line := { a.last_line with data := Function.update a.last_line.data position x } }

/-- The versions of the lines. -/
def Area.versions (a : Area α) : (ℕ → BitVec 64) × BitVec 64 := (fun i => (a.lines i).version, a.last_line.version)

lemma get_set {a : Area α} {x : α} {place place' : Place} :
    (a.set x place).get place' = if place = place' then x else a.get place' := by
  cases place with
  | line l p =>
    cases place' with
    | line l' p' =>
      simp only [Area.set, Area.get, Place.line.injEq, Function.update_apply]
      by_cases hl : l' = l
      · subst hl
        simp only [if_true, true_and, Function.update_apply, eq_comm]
      · rw [if_neg hl, if_neg fun h => hl h.1.symm]
    | tail p' => rfl
  | tail p =>
    cases place' with
    | line l' p' => rfl
    | tail p' => simp only [Area.set, Area.get, Place.tail.injEq, Function.update_apply, eq_comm]

lemma versions_set {a : Area α} {x : α} {place : Place} : (a.set x place).versions = a.versions := by
  cases place with
  | line l p =>
    refine Prod.ext ?_ rfl
    funext i
    simp only [Area.versions, Area.set, Function.update_apply]
    split_ifs with hi
    · rw [hi]
    · rfl
  | tail p => rfl

/-! ### Blocks -/

/-- A node; `rest` is what else it holds: in `ShermanBPTree` the line with its fence. Its keys and pointers
have no tail line. -/
structure Node (A R : Type) where
  keys : Area Key
  ptrs : Area (Option A)
  rest : R

/-- A leaf; `rest` is its range and its next pointer, and in `ShermanBPTree` the delete mark. -/
structure Leaf (V R : Type) where
  keys : Area Key
  values : Area V
  rest : R

/-- An access through the place of an index; outside the lines that are declared there is none. -/
def access (count width room : ℕ) (place : Place) {β : Type} (b : β) : Option β :=
  if place.Within count width room then some b else none

def Node.keyAt (degree : ℕ) (n : Node A R) (index : ℕ) : Option Key :=
  access (KLINES degree) KLINE_SIZE 0 (keyPlace index) (n.keys.get (keyPlace index))

def Node.ptrAt (degree : ℕ) (n : Node A R) (index : ℕ) : Option (Option A) :=
  access (PLINES degree) PLINE_SIZE 0 (ptrPlace index) (n.ptrs.get (ptrPlace index))

def Leaf.keyAt (degree : ℕ) (l : Leaf V R) (index : ℕ) : Option Key :=
  access (KLINES degree) KLINE_SIZE 0 (keyPlace index) (l.keys.get (keyPlace index))

def Leaf.valueAt (t : Tree) (degree size : ℕ) (l : Leaf V R) (index : ℕ) : Option V :=
  access (t.VLINES degree size) (VLINE_SIZE size) (t.HLINE_SIZE size) (valuePlace t degree size index)
    (l.values.get (valuePlace t degree size index))

inductive NodeWrite (A : Type) where
  | setKey (index : ℕ) (key : Key)
  | setPtr (index : ℕ) (ptr : Option A)

inductive LeafWrite (V : Type) where
  | setKey (index : ℕ) (key : Key)
  | setValue (index : ℕ) (value : V)

def Node.write (degree : ℕ) (n : Node A R) : NodeWrite A → Option (Node A R)
  | .setKey index key =>
    access (KLINES degree) KLINE_SIZE 0 (keyPlace index) { n with keys := n.keys.set key (keyPlace index) }
  | .setPtr index ptr =>
    access (PLINES degree) PLINE_SIZE 0 (ptrPlace index) { n with ptrs := n.ptrs.set ptr (ptrPlace index) }

def Leaf.write (t : Tree) (degree size : ℕ) (l : Leaf V R) : LeafWrite V → Option (Leaf V R)
  | .setKey index key =>
    access (KLINES degree) KLINE_SIZE 0 (keyPlace index) { l with keys := l.keys.set key (keyPlace index) }
  | .setValue index value =>
    access (t.VLINES degree size) (VLINE_SIZE size) (t.HLINE_SIZE size) (valuePlace t degree size index)
      { l with values := l.values.set value (valuePlace t degree size index) }

def NodeWrite.InRange (degree : ℕ) : NodeWrite A → Prop
  | .setKey index _ => index < SIZE degree
  | .setPtr index _ => index ≤ SIZE degree

def LeafWrite.InRange (degree : ℕ) : LeafWrite V → Prop
  | .setKey index _ | .setValue index _ => index < SIZE degree

/-- What a write sets at an index. -/
def NodeWrite.key (index : ℕ) : NodeWrite A → Option Key
  | .setKey i key => if i = index then some key else none
  | .setPtr _ _ => none

def NodeWrite.ptr (index : ℕ) : NodeWrite A → Option (Option A)
  | .setKey _ _ => none
  | .setPtr i ptr => if i = index then some ptr else none

def LeafWrite.key (index : ℕ) : LeafWrite V → Option Key
  | .setKey i key => if i = index then some key else none
  | .setValue _ _ => none

def LeafWrite.value (index : ℕ) : LeafWrite V → Option V
  | .setKey _ _ => none
  | .setValue i value => if i = index then some value else none

/-- The versions and what a block holds besides its slots. -/
def Node.frame (n : Node A R) : ((ℕ → BitVec 64) × BitVec 64) × ((ℕ → BitVec 64) × BitVec 64) × R :=
  (n.keys.versions, n.ptrs.versions, n.rest)

def Leaf.frame (l : Leaf V R) : ((ℕ → BitVec 64) × BitVec 64) × ((ℕ → BitVec 64) × BitVec 64) × R :=
  (l.keys.versions, l.values.versions, l.rest)

/-! ### Places -/

variable {t : Tree} {degree size i j : ℕ}

lemma line_injective {width : ℕ} (h : Place.line (i / width) (i % width) = .line (j / width) (j % width)) :
    i = j := by
  injection h with hline hposition
  rw [← Nat.div_add_mod i width, ← Nat.div_add_mod j width, hline, hposition]

lemma keyPlace_within (hi : i < SIZE degree) : (keyPlace i).Within (KLINES degree) KLINE_SIZE 0 := by
  simp only [keyPlace, Place.Within, KLINES, KLINE_SIZE]
  omega

lemma ptrPlace_within (hi : i ≤ SIZE degree) : (ptrPlace i).Within (PLINES degree) PLINE_SIZE 0 := by
  simp only [ptrPlace, Place.Within, PLINES, PLINE_SIZE]
  omega

/-- A value has room on the tail line, and a full line has at least that room. -/
lemma room_le (hsize : 0 < size) (hroom : size ≤ t.room) :
    0 < t.HLINE_SIZE size ∧ t.HLINE_SIZE size ≤ VLINE_SIZE size := by
  cases t with
  | rdmaBP => exact ⟨Nat.div_pos hroom hsize, Nat.div_le_div_right (by decide)⟩
  | sherman => exact ⟨Nat.div_pos hroom hsize, Nat.div_le_div_right (by decide)⟩

/-- The values that do not fit on the full lines fit on the tail line. -/
lemma size_lt (hsize : 0 < size) (hroom : size ≤ t.room) :
    SIZE degree < t.VLINES degree size * VLINE_SIZE size + t.HLINE_SIZE size := by
  obtain ⟨hpos, hle⟩ := room_le hsize hroom
  have hdiv := Nat.lt_div_mul_add (a := SIZE degree + VLINE_SIZE size - t.HLINE_SIZE size)
    (b := VLINE_SIZE size) (by omega)
  rw [Tree.VLINES, Btree.VLINES]
  omega

/-- An index behind the full lines is in the next line's worth. -/
lemma div_eq_of_le (hsize : 0 < size) (hroom : size ≤ t.room) (hi : i < SIZE degree)
    (hle : t.VLINES degree size ≤ i / VLINE_SIZE size) :
    i / VLINE_SIZE size = t.VLINES degree size ∧ i % VLINE_SIZE size < t.HLINE_SIZE size := by
  obtain ⟨hpos, hle'⟩ := room_le hsize hroom
  have hlt : SIZE degree < _ := size_lt hsize hroom
  have heq := Nat.div_add_mod i (VLINE_SIZE size)
  have hdiv : i / VLINE_SIZE size = t.VLINES degree size := by
    apply Nat.le_antisymm _ hle
    apply Nat.le_of_lt_succ
    rw [Nat.div_lt_iff_lt_mul (by omega), Nat.succ_mul]
    omega
  refine ⟨hdiv, ?_⟩
  rw [hdiv, Nat.mul_comm] at heq
  omega

lemma valuePlace_within (hsize : 0 < size) (hroom : size ≤ t.room) (hi : i < SIZE degree) :
    (valuePlace t degree size i).Within (t.VLINES degree size) (VLINE_SIZE size) (t.HLINE_SIZE size) := by
  obtain ⟨hpos, hle'⟩ := room_le hsize hroom
  rw [valuePlace]
  split_ifs with hle
  · exact (div_eq_of_le hsize hroom hi hle).2
  · exact ⟨Nat.lt_of_not_ge hle, Nat.mod_lt i (by omega)⟩

lemma valuePlace_injective (hsize : 0 < size) (hroom : size ≤ t.room) (hi : i < SIZE degree)
    (hj : j < SIZE degree) (h : valuePlace t degree size i = valuePlace t degree size j) : i = j := by
  rw [valuePlace, valuePlace] at h
  split_ifs at h with hle₁ hle₂ hle₂
  · obtain ⟨hdiv₁, -⟩ := div_eq_of_le hsize hroom hi hle₁
    obtain ⟨hdiv₂, -⟩ := div_eq_of_le hsize hroom hj hle₂
    injection h with hposition
    exact line_injective (by rw [hdiv₁, hdiv₂, hposition])
  · exact line_injective h

/-! ### Runs of writes -/

lemma access_within {count width room : ℕ} {place : Place} {β : Type} {b : β}
    (h : place.Within count width room) : access count width room place b = some b := if_pos h

/-- One slot is set, at the place of its index. -/
lemma get_set_place {a : Area α} {x : α} (place : ℕ → Place) (hplace : place i = place j → i = j) :
    (a.set x (place i)).get (place j) = (if i = j then some x else none).getD (a.get (place j)) := by
  rw [get_set]
  by_cases hij : i = j
  · rw [if_pos hij, if_pos (congrArg place hij)]
    rfl
  · rw [if_neg hij, if_neg fun h => hij (hplace h)]
    rfl

lemma Node.write_returns {n : Node A R} {w : NodeWrite A} (hw : w.InRange degree) :
    ∃ n', n.write degree w = some n' ∧
      (∀ i < SIZE degree, n'.keys.get (keyPlace i) = (w.key i).getD (n.keys.get (keyPlace i))) ∧ n'.frame = n.frame ∧
      ∀ i ≤ SIZE degree, n'.ptrs.get (ptrPlace i) = (w.ptr i).getD (n.ptrs.get (ptrPlace i)) := by
  cases w with
  | setKey index key =>
    refine ⟨_, access_within (keyPlace_within hw), fun i _ => get_set_place keyPlace line_injective, ?_,
      fun i _ => rfl⟩
    simp only [Node.frame, versions_set]
  | setPtr index ptr =>
    refine ⟨_, access_within (ptrPlace_within hw), fun i _ => rfl, ?_,
      fun i _ => get_set_place ptrPlace line_injective⟩
    simp only [Node.frame, versions_set]

lemma Leaf.write_returns {l : Leaf V R} {w : LeafWrite V} (hsize : 0 < size) (hroom : size ≤ t.room)
    (hw : w.InRange degree) :
    ∃ l', l.write t degree size w = some l' ∧
      (∀ i < SIZE degree, l'.keys.get (keyPlace i) = (w.key i).getD (l.keys.get (keyPlace i))) ∧ l'.frame = l.frame ∧
      ∀ i < SIZE degree, l'.values.get (valuePlace t degree size i) =
        (w.value i).getD (l.values.get (valuePlace t degree size i)) := by
  cases w with
  | setKey index key =>
    refine ⟨_, access_within (keyPlace_within hw), fun i _ => get_set_place keyPlace line_injective, ?_,
      fun i _ => rfl⟩
    simp only [Leaf.frame, versions_set]
  | setValue index value =>
    refine ⟨_, access_within (valuePlace_within hsize hroom hw), fun i _ => rfl, ?_, fun i hi => ?_⟩
    · simp only [Leaf.frame, versions_set]
    · exact get_set_place (valuePlace t degree size) fun h => valuePlace_injective hsize hroom hw hi h

/-- After the writes every index of a node has what was set there last, and nothing else has changed. -/
def Node.Keeps (degree : ℕ) (n : Node A R) (ws : List (NodeWrite A)) : Prop :=
  ∃ n', runAll (Node.write degree) ws n = some n' ∧ n'.frame = n.frame ∧
    (∀ i < SIZE degree, n'.keyAt degree i = some ((lastSet (NodeWrite.key i) ws).getD (n.keys.get (keyPlace i)))) ∧
    ∀ i ≤ SIZE degree, n'.ptrAt degree i = some ((lastSet (NodeWrite.ptr i) ws).getD (n.ptrs.get (ptrPlace i)))

def Leaf.Keeps (t : Tree) (degree size : ℕ) (l : Leaf V R) (ws : List (LeafWrite V)) : Prop :=
  ∃ l', runAll (Leaf.write t degree size) ws l = some l' ∧ l'.frame = l.frame ∧
    (∀ i < SIZE degree, l'.keyAt degree i = some ((lastSet (LeafWrite.key i) ws).getD (l.keys.get (keyPlace i)))) ∧
    ∀ i < SIZE degree, l'.valueAt t degree size i =
      some ((lastSet (LeafWrite.value i) ws).getD (l.values.get (valuePlace t degree size i)))

lemma Node.keeps {n : Node A R} {ws : List (NodeWrite A)} (h : ∀ w ∈ ws, w.InRange degree) :
    n.Keeps degree ws := by
  obtain ⟨n₁, hrun₁, hkey, hframe⟩ := exists_runAll (s := n) (p := (· < SIZE degree)) fun w hw n => by
    obtain ⟨n', hn', hkey, hframe, -⟩ := n.write_returns (h w hw)
    exact ⟨n', hn', hkey, hframe⟩
  obtain ⟨n₂, hrun₂, hptr, -⟩ := exists_runAll (s := n) (p := (· ≤ SIZE degree)) fun w hw n => by
    obtain ⟨n', hn', -, hframe, hptr⟩ := n.write_returns (h w hw)
    exact ⟨n', hn', hptr, hframe⟩
  obtain rfl : n₁ = n₂ := Option.some.inj (hrun₁.symm.trans hrun₂)
  refine ⟨n₁, hrun₁, hframe, fun i hi => ?_, fun i hi => ?_⟩
  · rw [Node.keyAt, access_within (keyPlace_within hi), hkey i hi]
  · rw [Node.ptrAt, access_within (ptrPlace_within hi), hptr i hi]

lemma Leaf.keeps {l : Leaf V R} {ws : List (LeafWrite V)} (hsize : 0 < size) (hroom : size ≤ t.room)
    (h : ∀ w ∈ ws, w.InRange degree) : l.Keeps t degree size ws := by
  obtain ⟨l₁, hrun₁, hkey, hframe⟩ := exists_runAll (s := l) (p := (· < SIZE degree)) fun w hw l => by
    obtain ⟨l', hl', hkey, hframe, -⟩ := l.write_returns hsize hroom (h w hw)
    exact ⟨l', hl', hkey, hframe⟩
  obtain ⟨l₂, hrun₂, hvalue, -⟩ := exists_runAll (s := l) (p := (· < SIZE degree)) fun w hw l => by
      obtain ⟨l', hl', -, hframe, hvalue⟩ := l.write_returns hsize hroom (h w hw)
      exact ⟨l', hl', hvalue, hframe⟩
  obtain rfl : l₁ = l₂ := Option.some.inj (hrun₁.symm.trans hrun₂)
  refine ⟨l₁, hrun₁, hframe, fun i hi => ?_, fun i hi => ?_⟩
  · rw [Leaf.keyAt, access_within (keyPlace_within hi), hkey i hi]
  · rw [Leaf.valueAt, access_within (valuePlace_within hsize hroom hi), hvalue i hi]

/-- The indices of a place map: each within the lines, no two in one place. -/
def OneToOne (count width room : ℕ) (p : ℕ → Prop) (place : ℕ → Place) : Prop :=
  (∀ i, p i → (place i).Within count width room) ∧ ∀ i j, p i → p j → place i = place j → i = j

/-- Keys, pointers and values of both trees' blocks have places of their own on the lines. -/
theorem slots_oneToOne (t : Tree) (degree size : ℕ) (hdvd : size ∣ 56) (hroom : size ≤ t.room) :
    OneToOne (KLINES degree) KLINE_SIZE 0 (· < SIZE degree) keyPlace ∧
      OneToOne (PLINES degree) PLINE_SIZE 0 (· ≤ SIZE degree) ptrPlace ∧
      OneToOne (t.VLINES degree size) (VLINE_SIZE size) (t.HLINE_SIZE size) (· < SIZE degree)
        (valuePlace t degree size) ∧
      (∀ (A R : Type) (n : Node A R) (ws : List (NodeWrite A)), (∀ w ∈ ws, w.InRange degree) →
        n.Keeps degree ws) ∧
      ∀ (V R : Type) (l : Leaf V R) (ws : List (LeafWrite V)), (∀ w ∈ ws, w.InRange degree) →
        l.Keeps t degree size ws := by
  have hsize : 0 < size := Nat.pos_of_dvd_of_pos hdvd (by decide)
  refine ⟨⟨fun i hi => keyPlace_within hi, fun i j _ _ h => line_injective h⟩,
    ⟨fun i hi => ptrPlace_within hi, fun i j _ _ h => line_injective h⟩,
    ⟨fun i hi => valuePlace_within hsize hroom hi, fun i j hi hj h => valuePlace_injective hsize hroom hi hj h⟩,
    fun A R n ws h => Node.keeps h, fun V R l ws h => Leaf.keeps hsize hroom h⟩

theorem slots_oneToOne_eight :
    OneToOne (Tree.VLINES .sherman 2 8) (VLINE_SIZE 8) (Tree.HLINE_SIZE .sherman 8) (· < SIZE 2)
        (valuePlace .sherman 2 8) ∧
      ∃ l : Leaf ℤ Unit, l.Keeps .sherman 2 8 [.setValue 4 1, .setKey 0 7, .setValue 0 2, .setValue 4 3] := by
  have h := slots_oneToOne .sherman 2 8 (by decide) (by decide)
  refine ⟨h.2.2.1, ⟨⟨fun _ => ⟨0, fun _ => 0⟩, ⟨0, fun _ => 0⟩⟩, ⟨fun _ => ⟨0, fun _ => 0⟩, ⟨0, fun _ => 0⟩⟩, ()⟩, ?_⟩
  apply h.2.2.2.2
  intro w hw
  simp only [List.mem_cons, List.not_mem_nil, or_false] at hw
  have hsize : SIZE 2 = 5 := rfl
  rcases hw with rfl | rfl | rfl | rfl <;> simp only [LeafWrite.InRange, hsize] <;> omega

/-- With values of 8 bytes the last of nine values is on the tail line. -/
example : valuePlace .sherman 2 8 4 = .line 0 4 ∧ valuePlace .sherman 4 8 8 = .tail 1 := by decide

end ObjectCache.Sherman.SlotLines
