import Mathlib.Data.BitVec
import Mathlib.Data.List.Range
import Mathlib.Tactic.IntervalCases

namespace ActQuant.Lib

/-! Nested loops that write one array from its start to its end, and arrays of bytes. -/

/-- What two nested loops write, one entry at each of their steps. -/
theorem flatMap_range_map (f : Nat → Nat → α) (a b : Nat) :
    ((List.range a).flatMap fun i => (List.range b).map (f i)) =
      (List.range (a * b)).map fun p => f (p / b) (p % b) := by
  induction a with
  | zero =>
    rw [Nat.zero_mul]
    rfl
  | succ a ih =>
    rw [List.range_succ, List.flatMap_append, ih, List.flatMap_singleton, Nat.succ_mul,
      List.range_add, List.map_append, List.map_map]
    congr 1
    apply List.map_congr_left
    intro j hj
    rw [List.mem_range] at hj
    have hdiv : (a * b + j) / b = a := by
      rw [Nat.add_comm, Nat.add_mul_div_right _ _ (by omega), Nat.div_eq_of_lt hj, Nat.zero_add]
    have hmod : (a * b + j) % b = j := by
      rw [Nat.mul_add_mod', Nat.mod_eq_of_lt hj]
    rw [Function.comp, hdiv, hmod]

abbrev Byte := BitVec 8

/-- The byte of an array at a position, zero past its end. -/
def byteAt (bytes : List Byte) (i : Nat) : Byte := bytes.getD i 0

theorem byteAt_map_range (f : Nat → Byte) (h : i < n) :
    byteAt ((List.range n).map f) i = f i := by
  rw [byteAt, List.getD_eq_getElem?_getD, List.getElem?_map, List.getElem?_range h]
  rfl

theorem byteAt_take (bytes : List Byte) (h : i < n) : byteAt (bytes.take n) i = byteAt bytes i := by
  rw [byteAt, byteAt, List.getD_eq_getElem?_getD, List.getD_eq_getElem?_getD,
    List.getElem?_take_of_lt h]

theorem byteAt_drop (bytes : List Byte) (n i : Nat) :
    byteAt (bytes.drop n) i = byteAt bytes (n + i) := by
  rw [byteAt, byteAt, List.getD_eq_getElem?_getD, List.getD_eq_getElem?_getD, List.getElem?_drop]

/-- The bytes of rows of a width, each row shifted by every one of the shifts: a flat array of
`rows × shifts × width` entries. -/
def planes (width : Nat) (shifts : List Nat) (bytes : List Byte) : List Byte :=
  (List.range (bytes.length / width)).flatMap fun row =>
    shifts.flatMap fun shift =>
      (List.range width).map fun l => byteAt bytes (row * width + l) >>> shift

theorem flatMap_eq_range (shifts : List Nat) (f : Nat → List α) :
    shifts.flatMap f = (List.range shifts.length).flatMap fun i => f (shifts.getD i 0) := by
  induction shifts with
  | nil => rfl
  | cons s shifts ih =>
    rw [List.flatMap_cons, ih, List.length_cons, List.range_succ_eq_map, List.flatMap_cons,
      List.flatMap_map]
    rfl

theorem planes_eq (width : Nat) (shifts : List Nat) (bytes : List Byte) :
    planes width shifts bytes =
      (List.range (bytes.length / width * (shifts.length * width))).map fun p =>
        byteAt bytes (p / (shifts.length * width) * width + p % width) >>>
          shifts.getD (p % (shifts.length * width) / width) 0 := by
  have hrow (row : Nat) : (shifts.flatMap fun shift =>
      (List.range width).map fun l => byteAt bytes (row * width + l) >>> shift) =
      (List.range (shifts.length * width)).map fun p =>
        byteAt bytes (row * width + p % width) >>> shifts.getD (p / width) 0 := by
    rw [flatMap_eq_range, flatMap_range_map]
  rw [planes]
  simp only [hrow]
  rw [flatMap_range_map]
  apply List.map_congr_left
  intro p _
  rw [Nat.mod_mul_left_mod]

/-- Four bytes as a word, the first one lowest. -/
def word (b : Nat → Byte) : BitVec 32 := b 3 ++ b 2 ++ b 1 ++ b 0

/-- A byte of a word, from the lowest one up. -/
def byteOf (w : BitVec 32) (k : Nat) : Byte := (w >>> (8 * k)).setWidth 8

theorem byteOf_or (x y : BitVec 32) (k : Nat) : byteOf (x ||| y) k = byteOf x k ||| byteOf y k := by
  rw [byteOf, BitVec.ushiftRight_or_distrib, BitVec.setWidth_or]
  rfl

end ActQuant.Lib
