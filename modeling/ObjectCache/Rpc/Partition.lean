import ObjectCache.Lib.Fallible
import Mathlib.Data.Int.Init
import Mathlib.Tactic.Linarith

/-! How `TwoSidedIHT` divides the key space among its nodes, in `int` arithmetic. -/

namespace ObjectCache.Rpc

open Lib

def INT_MIN : ℤ := -2147483648

def INT_MAX : ℤ := 2147483647

/-- A result outside `int`, a division by zero, and the two assertions. -/
inductive Fault where
  | overflow
  | division
  | keyspace
  | id
  deriving DecidableEq

/-- The result of an `int` operation. -/
def int (x : ℤ) : Except Fault ℤ := if INT_MIN ≤ x ∧ x ≤ INT_MAX then .ok x else .error .overflow

/-- `x / y`, which rounds towards zero. -/
def intDiv (x y : ℤ) : Except Fault ℤ := if y = 0 then .error .division else int (x.tdiv y)

structure TwoSidedIHT where
  self_id : ℤ
  count : ℤ
  keyspace_lb : ℤ
  keyspace_len : ℤ

def TwoSidedIHT.new (self_id count keyspace_lb keyspace_ub : ℤ) : Except Fault TwoSidedIHT := do
  let keyspace_len ← int (keyspace_ub - keyspace_lb)
  if 0 ≤ self_id ∧ self_id < count then return ⟨self_id, count, keyspace_lb, keyspace_len⟩
  throw .id

def TwoSidedIHT.toId (t : TwoSidedIHT) (key : ℤ) : Except Fault ℤ := do
  if key < t.keyspace_lb then throw .keyspace
  let offset ← int (key - t.keyspace_lb)
  if t.keyspace_len < offset then throw .keyspace
  let product ← int (t.count * offset)
  let id ← intDiv product t.keyspace_len
  if id = t.count then int (id - 1) else return id

/-- `to_id` on a table made with these arguments. -/
def toId (self_id count keyspace_lb keyspace_ub key : ℤ) : Except Fault ℤ := do
  let t ← TwoSidedIHT.new self_id count keyspace_lb keyspace_ub
  t.toId key

variable {self_id count keyspace_lb keyspace_ub key : ℤ}

lemma int_ok {x : ℤ} (hlo : INT_MIN ≤ x) (hhi : x ≤ INT_MAX) : int x = .ok x := if_pos ⟨hlo, hhi⟩

lemma int_overflow {x : ℤ} (h : INT_MAX < x) : int x = .error .overflow := if_neg fun hx => by omega

/-- The node of a key where nothing overflows. -/
def nodeOf (count keyspace_lb keyspace_ub key : ℤ) : ℤ :=
  if key = keyspace_ub then count - 1 else count * (key - keyspace_lb) / (keyspace_ub - keyspace_lb)

section Fits

variable (hcount : 1 ≤ count) (hlt : keyspace_lb < keyspace_ub)
include hcount hlt

lemma nodeOf_nonneg (hlo : keyspace_lb ≤ key) : 0 ≤ nodeOf count keyspace_lb keyspace_ub key := by
  rw [nodeOf]
  split_ifs with hub
  · omega
  · exact Int.ediv_nonneg (Int.mul_nonneg (by omega) (by omega)) (by omega)

lemma nodeOf_lt (hhi : key ≤ keyspace_ub) : nodeOf count keyspace_lb keyspace_ub key < count := by
  rw [nodeOf]
  split_ifs with hub
  · omega
  · have hoffset : key - keyspace_lb < keyspace_ub - keyspace_lb := by omega
    exact Int.ediv_lt_of_lt_mul (by omega) (Int.mul_lt_mul_of_pos_left hoffset (by omega))

lemma nodeOf_mono {key' : ℤ} (hle : key ≤ key') (hhi : key' ≤ keyspace_ub) :
    nodeOf count keyspace_lb keyspace_ub key ≤ nodeOf count keyspace_lb keyspace_ub key' := by
  by_cases hub : key' = keyspace_ub
  · have hlast := nodeOf_lt hcount hlt (Int.le_trans hle hhi)
    rw [nodeOf.eq_1 count keyspace_lb keyspace_ub key', if_pos hub]
    omega
  · have hne : key ≠ keyspace_ub := by omega
    rw [nodeOf, nodeOf, if_neg hub, if_neg hne]
    have hoffset : count * (key - keyspace_lb) ≤ count * (key' - keyspace_lb) :=
      Int.mul_le_mul_of_nonneg_left (by omega) (by omega)
    exact Int.ediv_le_ediv (by omega) hoffset

lemma toId_eq (hself : 0 ≤ self_id ∧ self_id < count)
    (hfit : count * (keyspace_ub - keyspace_lb) ≤ INT_MAX) (hlo : keyspace_lb ≤ key) (hhi : key ≤ keyspace_ub) :
    toId self_id count keyspace_lb keyspace_ub key = .ok (nodeOf count keyspace_lb keyspace_ub key) := by
  have hmin : INT_MIN ≤ 0 := by decide
  have hlen : keyspace_ub - keyspace_lb ≤ count * (keyspace_ub - keyspace_lb) := by nlinarith
  have hoffset : count * (key - keyspace_lb) ≤ count * (keyspace_ub - keyspace_lb) :=
    Int.mul_le_mul_of_nonneg_left (by omega) (by omega)
  have hproduct : 0 ≤ count * (key - keyspace_lb) := Int.mul_nonneg (by omega) (by omega)
  have hnew : TwoSidedIHT.new self_id count keyspace_lb keyspace_ub =
      .ok ⟨self_id, count, keyspace_lb, keyspace_ub - keyspace_lb⟩ := by
    rw [TwoSidedIHT.new, int_ok (by omega) (by omega)]
    show (if 0 ≤ self_id ∧ self_id < count then _ else _) = _
    rw [if_pos hself]
    rfl
  rw [toId, hnew]
  show TwoSidedIHT.toId ⟨self_id, count, keyspace_lb, keyspace_ub - keyspace_lb⟩ key = _
  rw [TwoSidedIHT.toId, if_neg (show ¬ key < keyspace_lb by omega)]
  show (int (key - keyspace_lb) >>= _) = _
  rw [int_ok (by omega) (by omega)]
  show (if keyspace_ub - keyspace_lb < key - keyspace_lb then _ else _) = _
  rw [if_neg (by omega)]
  show (int (count * (key - keyspace_lb)) >>= _) = _
  rw [int_ok (by omega) (by omega)]
  show (intDiv (count * (key - keyspace_lb)) (keyspace_ub - keyspace_lb) >>= _) = _
  have hid : count * (key - keyspace_lb) / (keyspace_ub - keyspace_lb) ≤ count :=
    Int.ediv_le_of_le_mul (by omega) hoffset
  have hid' : 0 ≤ count * (key - keyspace_lb) / (keyspace_ub - keyspace_lb) :=
    Int.ediv_nonneg hproduct (by omega)
  have hcount' : count ≤ INT_MAX := by nlinarith
  rw [intDiv, if_neg (by omega), Int.tdiv_eq_ediv_of_nonneg hproduct, int_ok (by omega) (by omega)]
  show (if count * (key - keyspace_lb) / (keyspace_ub - keyspace_lb) = count then _ else _) = _
  by_cases hub : key = keyspace_ub
  · rw [nodeOf, if_pos hub, hub, Int.mul_ediv_cancel _ (by omega), if_pos rfl]
    exact int_ok (by omega) (by omega)
  · have hlast := nodeOf_lt hcount hlt hhi
    rw [nodeOf, if_neg hub] at hlast ⊢
    rw [if_neg (by omega)]
    rfl

end Fits

/-- Every key of the inclusive range gets a node, in the order of the keys. -/
def Partitions (self_id count keyspace_lb keyspace_ub : ℤ) : Prop :=
  (∀ key, keyspace_lb ≤ key → key ≤ keyspace_ub →
    ∃ id, toId self_id count keyspace_lb keyspace_ub key = .ok id ∧ 0 ≤ id ∧ id < count) ∧
  ∀ key key' id id', keyspace_lb ≤ key → key ≤ key' → key' ≤ keyspace_ub →
    toId self_id count keyspace_lb keyspace_ub key = .ok id →
    toId self_id count keyspace_lb keyspace_ub key' = .ok id' → id ≤ id'

/-- The upper end of the key space has no node where the range is empty or its product overflows. -/
lemma toId_upper (hcount : 1 ≤ count) (hle : keyspace_lb ≤ keyspace_ub)
    (h : ¬ (keyspace_lb < keyspace_ub ∧ count * (keyspace_ub - keyspace_lb) ≤ INT_MAX)) :
    ∃ fault, toId self_id count keyspace_lb keyspace_ub keyspace_ub = .error fault := by
  have hmin : INT_MIN ≤ 0 := by decide
  have hmax : 0 ≤ INT_MAX := by decide
  rw [toId, TwoSidedIHT.new]
  by_cases hlen : keyspace_ub - keyspace_lb ≤ INT_MAX
  · rw [int_ok (by omega) hlen]
    by_cases hself : 0 ≤ self_id ∧ self_id < count
    · refine ⟨if keyspace_lb = keyspace_ub then .division else .overflow, ?_⟩
      show (if 0 ≤ self_id ∧ self_id < count then _ else _ : Except Fault TwoSidedIHT) >>= _ = _
      rw [if_pos hself]
      show TwoSidedIHT.toId ⟨self_id, count, keyspace_lb, keyspace_ub - keyspace_lb⟩ keyspace_ub = _
      rw [TwoSidedIHT.toId, if_neg (show ¬ keyspace_ub < keyspace_lb by omega)]
      show (int (keyspace_ub - keyspace_lb) >>= _) = _
      rw [int_ok (by omega) hlen]
      show (if keyspace_ub - keyspace_lb < keyspace_ub - keyspace_lb then _ else _) = _
      rw [if_neg (by omega)]
      show (int (count * (keyspace_ub - keyspace_lb)) >>= _) = _
      by_cases heq : keyspace_lb = keyspace_ub
      · subst heq
        rw [Int.sub_self, Int.mul_zero, int_ok hmin hmax, if_pos rfl]
        rfl
      · rw [int_overflow (by omega), if_neg heq]
        rfl
    · refine ⟨.id, ?_⟩
      show (if 0 ≤ self_id ∧ self_id < count then _ else _ : Except Fault TwoSidedIHT) >>= _ = _
      rw [if_neg hself]
      rfl
  · rw [int_overflow (by omega)]
    exact ⟨.overflow, rfl⟩

theorem partitions_iff (hcount : 1 ≤ count) (hself : 0 ≤ self_id ∧ self_id < count)
    (hle : keyspace_lb ≤ keyspace_ub) : Partitions self_id count keyspace_lb keyspace_ub ↔
      keyspace_lb < keyspace_ub ∧ count * (keyspace_ub - keyspace_lb) ≤ INT_MAX := by
  constructor
  · intro h
    by_contra hfit
    obtain ⟨fault, hfault⟩ : ∃ fault, toId self_id count keyspace_lb keyspace_ub keyspace_ub = .error fault :=
      toId_upper hcount hle hfit
    obtain ⟨id, hid, -⟩ := h.1 keyspace_ub hle (Int.le_refl keyspace_ub)
    rw [hfault] at hid
    cases hid
  · rintro ⟨hlt, hfit⟩
    refine ⟨fun key hlo hhi => ?_, fun key key' id id' hlo hkey hhi hid hid' => ?_⟩
    · exact ⟨_, toId_eq hcount hlt hself hfit hlo hhi, nodeOf_nonneg hcount hlt hlo, nodeOf_lt hcount hlt hhi⟩
    · rw [toId_eq hcount hlt hself hfit hlo (Int.le_trans hkey hhi)] at hid
      rw [toId_eq hcount hlt hself hfit (Int.le_trans hlo hkey) hhi] at hid'
      cases hid
      cases hid'
      exact nodeOf_mono hcount hlt hkey hhi

theorem partitions_hundred : Partitions 0 3 (-50) 50 ↔ (-50 : ℤ) < 50 ∧ 3 * (50 - (-50)) ≤ INT_MAX :=
  partitions_iff (by decide) (by decide) (by decide)

/-- Four nodes and a thousand million keys. -/
theorem not_partitions : ¬ Partitions 0 4 0 1000000000 := by
  intro h
  obtain ⟨id, hid, -⟩ := h.1 1000000000 (by decide) (by decide)
  have hfault : toId 0 4 0 1000000000 1000000000 = .error .overflow := by decide
  rw [hfault] at hid
  cases hid

end ObjectCache.Rpc
