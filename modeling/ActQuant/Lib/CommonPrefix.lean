import Mathlib.Data.List.Infix
import Mathlib.Order.Bounds.Basic

namespace ActQuant.Lib

/-! How far a list agrees with itself moved by some places, and what that says of suffixes. -/

/-- So many elements from the `k`-th on are the first ones. -/
def Agrees (xs : List α) (k n : Nat) : Prop := ∀ j < n, xs[k + j]? = xs[j]?

/-- So many elements from the `k`-th on are the first ones, and not one more. -/
structure Extent (xs : List α) (k n : Nat) : Prop where
  le : k + n ≤ xs.length
  agrees : Agrees xs k n
  stops : k + n = xs.length ∨ xs[k + n]? ≠ xs[n]?

/-- The lengths of the common suffixes of two lists. -/
def commonSuffixes (xs ys : List α) : Set Nat := {n | ∃ s, s <:+ xs ∧ s <:+ ys ∧ s.length = n}

section Extents
variable {xs : List α}

theorem Agrees.mono (h : Agrees xs k n) (hle : m ≤ n) : Agrees xs k m :=
  fun j hj => h j (Nat.lt_of_lt_of_le hj hle)

/-- What agrees to an end that is not in the list, or breaks there, agrees no further. -/
theorem Extent.le_of_agrees (h : Extent xs k n) (hm : Agrees xs k m) (hle : k + m ≤ xs.length) :
    m ≤ n := by
  by_contra hlt
  rw [Nat.not_le] at hlt
  obtain hend | hne := h.stops
  · omega
  · exact hne (hm n hlt)

theorem Extent.unique (h : Extent xs k n) (h' : Extent xs k m) : n = m :=
  Nat.le_antisymm (h'.le_of_agrees h.agrees h.le) (h.le_of_agrees h'.agrees h'.le)

/-- Behind a place where the list agrees with its start, it repeats what it is there. -/
theorem Agrees.shift (h : Agrees xs l n) (hlk : l ≤ k) (hj : k + j < l + n) :
    xs[k + j]? = xs[k - l + j]? := by
  have hbox := h (k - l + j) (by omega)
  rwa [show l + (k - l + j) = k + j by omega] at hbox

/-- A short extent inside a stretch that repeats the start is repeated there. -/
theorem Extent.copy (hbox : Agrees xs l n) (hlk : l ≤ k) (hle : l + n ≤ xs.length)
    (hm : Extent xs (k - l) m) (hshort : k + m < l + n) : Extent xs k m where
  le := by omega
  agrees := fun j hj => (hbox.shift hlk (by omega)).trans (hm.agrees j hj)
  stops := by
    rw [hbox.shift hlk hshort]
    have hin : k - l + m ≠ xs.length := by omega
    exact .inr (hm.stops.resolve_left hin)

/-- An extent that reaches the end of such a stretch makes all of it agree. -/
theorem Extent.seed (hbox : Agrees xs l n) (hlk : l ≤ k) (hm : Extent xs (k - l) m)
    (hlong : l + n ≤ k + m) : Agrees xs k (l + n - k) :=
  fun j hj => (hbox.shift hlk (by omega)).trans (hm.agrees j (by omega))

theorem agrees_iff_take : Agrees xs k n ↔ (xs.drop k).take n = xs.take n := by
  constructor
  · intro h
    apply List.ext_getElem?
    intro j
    rw [List.getElem?_take, List.getElem?_take, List.getElem?_drop]
    split
    · exact h j ‹_›
    · rfl
  · intro h j hj
    have hget := congrArg (·[j]?) h
    simp only [List.getElem?_take, if_pos hj, List.getElem?_drop] at hget
    exact hget

/-- The extent at a place is the greatest length of a common suffix, of the reversed list and of
what it was that many elements earlier. -/
theorem Extent.isGreatest (h : Extent xs k n) :
    IsGreatest (commonSuffixes xs.reverse (xs.reverse.take (xs.length - k))) n := by
  have hearlier : xs.reverse.take (xs.length - k) = (xs.drop k).reverse := by
    have hle := h.le
    rw [List.take_reverse, Nat.sub_sub_self (by omega)]
  rw [hearlier]
  constructor
  · have htake := agrees_iff_take.1 h.agrees
    refine ⟨(xs.take n).reverse, List.reverse_suffix.2 (List.take_prefix n xs), ?_, ?_⟩
    · rw [← htake]
      exact List.reverse_suffix.2 (List.take_prefix n _)
    · rw [List.length_reverse, List.length_take]
      have := h.le
      omega
  · rintro m ⟨s, hs, hs', rfl⟩
    rw [← List.reverse_prefix, List.reverse_reverse, List.prefix_iff_eq_take,
      List.length_reverse] at hs hs'
    have hlen := congrArg List.length hs'
    rw [List.length_take, List.length_drop, List.length_reverse] at hlen
    have hkm : k + s.length ≤ xs.length := by have := h.le; omega
    exact h.le_of_agrees (agrees_iff_take.2 (hs'.symm.trans hs)) hkm

end Extents

end ActQuant.Lib
