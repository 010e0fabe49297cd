import Mathlib.Algebra.BigOperators.Group.List.Basic
import Mathlib.Tactic.Ring

namespace ActQuant.Lib

/-- The position of a multi-index in row-major order. -/
def ravel : List Nat → List Nat → Nat
  | _ :: shape, i :: is => i * shape.prod + ravel shape is
  | _, _ => 0

/-- The multi-index at a position in row-major order. -/
def unravel : List Nat → Nat → List Nat
  | [], _ => []
  | _ :: shape, p => p / shape.prod :: unravel shape (p % shape.prod)

theorem row_of_position (hj : j < n) (i : Nat) : (i * n + j) / n = i := by
  rw [Nat.add_comm, Nat.add_mul_div_right _ _ (by omega), Nat.div_eq_of_lt hj, Nat.zero_add]

theorem column_of_position (hj : j < n) (i : Nat) : (i * n + j) % n = j := by
  rw [Nat.mul_add_mod', Nat.mod_eq_of_lt hj]

abbrev InShape (is shape : List Nat) : Prop := List.Forall₂ (· < ·) is shape

theorem ravel_lt (h : InShape is shape) : ravel shape is < shape.prod := by
  induction h with
  | nil => exact Nat.one_pos
  | @cons i n is shape hi _ ih =>
    have hle : (i + 1) * shape.prod ≤ n * shape.prod := Nat.mul_le_mul_right _ hi
    rw [Nat.succ_mul] at hle
    simp only [ravel, List.prod_cons]
    omega

theorem unravel_ravel (h : InShape is shape) : unravel shape (ravel shape is) = is := by
  induction h with
  | nil => rfl
  | @cons i n is shape hi htail ih =>
    have hlt : ravel shape is < shape.prod := ravel_lt htail
    rw [ravel, unravel, row_of_position hlt, column_of_position hlt, ih]

theorem inShape_unravel (h : p < shape.prod) : InShape (unravel shape p) shape := by
  induction shape generalizing p with
  | nil => exact .nil
  | cons n shape ih =>
    rw [List.prod_cons] at h
    have hpos : 0 < shape.prod := by
      rcases Nat.eq_zero_or_pos shape.prod with h₀ | h₀
      · simp only [h₀, Nat.mul_zero, Nat.not_lt_zero] at h
      · exact h₀
    exact .cons (Nat.div_lt_of_lt_mul (Nat.mul_comm n _ ▸ h)) (ih (Nat.mod_lt _ hpos))

/-- The entries of axes 1 and 2 exchanged. -/
def swap12 : List Nat → List Nat
  | a :: b :: c :: rest => a :: c :: b :: rest
  | is => is

theorem swap12_swap12 (is : List Nat) : swap12 (swap12 is) = is := by
  unfold swap12
  grind

theorem prod_swap12 (shape : List Nat) : (swap12 shape).prod = shape.prod := by
  unfold swap12
  split
  · simp only [List.prod_cons]
    ring
  · rfl

theorem InShape.swap12 (h : InShape is shape) : InShape (swap12 is) (swap12 shape) := by
  cases h with
  | nil => exact .nil
  | cons ha h =>
    cases h with
    | nil => exact .cons ha .nil
    | cons hb h =>
      cases h with
      | nil => exact .cons ha (.cons hb .nil)
      | cons hc h => exact .cons ha (.cons hc (.cons hb h))

/-- Where the value at a position of the swapped array comes from. -/
def swapSource (shape : List Nat) (p : Nat) : Nat :=
  ravel shape (swap12 (unravel (swap12 shape) p))

theorem swapSource_lt (h : p < shape.prod) : swapSource shape p < shape.prod := by
  apply ravel_lt
  rw [← prod_swap12] at h
  have hin := InShape.swap12 (inShape_unravel h)
  rwa [swap12_swap12] at hin

/-- An array: its dimensions, and one value for each position in row-major order. -/
structure Ndarray (α : Type*) where
  shape : List Nat
  data : List α
  length_data : data.length = shape.prod

namespace Ndarray

def ofFn (rows cols : Nat) (f : Nat → Nat → α) : Ndarray α where
  shape := [rows, cols]
  data := (List.range (rows * cols)).map fun p => f (p / cols) (p % cols)
  length_data := by simp only [List.length_map, List.length_range, List.prod_cons,
    List.prod_nil, Nat.mul_one]

def at? (t : Ndarray α) (is : List Nat) : Option α :=
  if InShape is t.shape then t.data[ravel t.shape is]? else none

def map (f : α → β) (t : Ndarray α) : Ndarray β where
  shape := t.shape
  data := t.data.map f
  length_data := by rw [List.length_map, t.length_data]

/-- `reshape`: the same values under other dimensions of the same size. -/
def reshape (shape : List Nat) (t : Ndarray α) : Option (Ndarray α) :=
  if h : shape.prod = t.shape.prod then some ⟨shape, t.data, t.length_data.trans h.symm⟩
  else none

theorem reshape_eq_some {t : Ndarray α} {shape : List Nat} (h : shape.prod = t.shape.prod) :
    t.reshape shape = some ⟨shape, t.data, t.length_data.trans h.symm⟩ := dif_pos h

def swapaxes12 (t : Ndarray α) : Ndarray α where
  shape := swap12 t.shape
  data := List.ofFn fun p : Fin t.shape.prod =>
    t.data.get ⟨swapSource t.shape p, by rw [t.length_data]; exact swapSource_lt p.isLt⟩
  length_data := by rw [List.length_ofFn, prod_swap12]

theorem at?_of_inShape {t : Ndarray α} (h : InShape is t.shape) :
    t.at? is = t.data[ravel t.shape is]? := if_pos h

theorem at?_ofFn (f : Nat → Nat → α) (hi : i < rows) (hj : j < cols) :
    (ofFn rows cols f).at? [i, j] = some (f i j) := by
  have hin : InShape [i, j] [rows, cols] := .cons hi (.cons hj .nil)
  have hlt := ravel_lt hin
  simp only [ravel, List.prod_cons, List.prod_nil, Nat.mul_one, Nat.add_zero] at hlt
  rw [at?_of_inShape hin]
  simp only [ofFn, ravel, List.prod_cons, List.prod_nil, Nat.mul_one, Nat.add_zero,
    List.getElem?_map, List.getElem?_range hlt, Option.map_some, row_of_position hj,
    column_of_position hj]

theorem at?_swapaxes12 {t : Ndarray α} (h : InShape is t.shape) :
    t.swapaxes12.at? (swap12 is) = t.at? is := by
  have hin : InShape (swap12 is) (swap12 t.shape) := InShape.swap12 h
  have hlt : ravel (swap12 t.shape) (swap12 is) < t.shape.prod := by
    rw [← prod_swap12]
    exact ravel_lt hin
  have hsrc : swapSource t.shape (ravel (swap12 t.shape) (swap12 is)) = ravel t.shape is := by
    rw [swapSource, unravel_ravel hin, swap12_swap12]
  have hlt' : ravel t.shape is < t.data.length := t.length_data ▸ ravel_lt h
  rw [at?_of_inShape (t := t.swapaxes12) hin, at?_of_inShape h, List.getElem?_eq_getElem hlt']
  simp only [swapaxes12, List.getElem?_ofFn, dif_pos hlt, List.get_eq_getElem, hsrc]

end Ndarray

section Broadcast
variable {α : Type*} [Zero α] {f : α → α → α} {xs ys zs : List α}

/-- An entrywise operation on two vectors, either of which may have one entry for all. -/
def broadcast (f : α → α → α) (xs ys : List α) : Option (List α) :=
  if xs.length = ys.length then some (List.zipWith f xs ys)
  else if xs.length = 1 then some (ys.map (f (xs.getD 0 0)))
  else if ys.length = 1 then some (xs.map (f · (ys.getD 0 0)))
  else none

/-- The entry of a vector that may have one entry for all. -/
def stretched (xs : List α) (i : Nat) : α := xs.getD (if xs.length = 1 then 0 else i) 0

theorem getD_map_of_lt {g : α → α} {i : Nat} (hi : i < xs.length) :
    (xs.map g).getD i 0 = g (xs.getD i 0) := by
  rw [List.getD_eq_getElem?_getD, List.getD_eq_getElem?_getD, List.getElem?_map,
    List.getElem?_eq_getElem hi]
  rfl

theorem getD_zipWith_of_lt {i : Nat} (hx : i < xs.length) (hy : i < ys.length) :
    (List.zipWith f xs ys).getD i 0 = f (xs.getD i 0) (ys.getD i 0) := by
  rw [List.getD_eq_getElem?_getD, List.getD_eq_getElem?_getD, List.getD_eq_getElem?_getD,
    List.getElem?_zipWith, List.getElem?_eq_getElem hx, List.getElem?_eq_getElem hy]
  rfl

theorem length_broadcast (h : broadcast f xs ys = some zs) :
    zs.length = if xs.length = 1 then ys.length else xs.length := by
  rw [broadcast] at h
  split at h
  case isTrue hlen =>
    cases h
    rw [List.length_zipWith, hlen, Nat.min_self, ite_self]
  case isFalse hlen =>
    split at h
    case isTrue hx =>
      cases h
      rw [List.length_map, if_pos hx]
    case isFalse hx =>
      split at h
      case isTrue hy =>
        cases h
        rw [List.length_map, if_neg hx]
      case isFalse hy => cases h

theorem compatible_of_broadcast (h : broadcast f xs ys = some zs) :
    xs.length = ys.length ∨ xs.length = 1 ∨ ys.length = 1 := by
  by_contra hnot
  obtain ⟨hlen, hx, hy⟩ : xs.length ≠ ys.length ∧ xs.length ≠ 1 ∧ ys.length ≠ 1 := by
    simpa only [not_or] using hnot
  rw [broadcast, if_neg hlen, if_neg hx, if_neg hy] at h
  cases h

/-- Broadcasting goes entry by entry. -/
theorem stretched_broadcast (h : broadcast f xs ys = some zs) (hi : i < zs.length ∨ zs.length = 1) :
    stretched zs i = f (stretched xs i) (stretched ys i) := by
  have hlength := length_broadcast h
  rw [broadcast] at h
  split at h
  case isTrue hlen =>
    cases h
    have hplace (j : Nat) (hj : j < ys.length) : (List.zipWith f xs ys).getD j 0 =
        f (xs.getD j 0) (ys.getD j 0) := getD_zipWith_of_lt (hlen ▸ hj) hj
    rw [hlen, ite_self] at hlength
    rw [stretched, stretched, stretched, hlength, hlen]
    split
    case isTrue hone => exact hplace 0 (by omega)
    case isFalse hmany => exact hplace i (by omega)
  case isFalse hlen =>
    split at h
    case isTrue hx =>
      cases h
      rw [if_pos hx] at hlength
      have hy : ys.length ≠ 1 := fun hy => hlen (hx.trans hy.symm)
      rw [stretched, stretched, stretched, hlength, if_neg hy, if_pos hx]
      exact getD_map_of_lt (by omega)
    case isFalse hx =>
      split at h
      case isTrue hy =>
        cases h
        rw [if_neg hx] at hlength
        rw [stretched, stretched, stretched, hlength, if_neg hx, if_pos hy]
        exact getD_map_of_lt (by omega)
      case isFalse hy => cases h

end Broadcast
end ActQuant.Lib
