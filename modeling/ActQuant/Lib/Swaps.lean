import Mathlib.Data.List.Basic
import Mathlib.Data.List.GetD
import Mathlib.Order.Lattice

namespace ActQuant.Lib

/-! Swaps that are recorded on one list and applied to another. -/

def swap (xs : List α) (i j : Nat) : List α :=
  if h : i < xs.length ∧ j < xs.length then
    (xs.set i (xs.get ⟨j, h.2⟩)).set j (xs.get ⟨i, h.1⟩)
  else xs

theorem swap_eq {xs : List α} (hi : i < xs.length) (hj : j < xs.length) :
    swap xs i j = (xs.set i xs[j]).set j xs[i] :=
  dif_pos ⟨hi, hj⟩

theorem swap_length (xs : List α) (i j : Nat) : (swap xs i j).length = xs.length := by
  rw [swap]
  split
  · rw [List.length_set, List.length_set]
  · rfl

theorem swap_perm (xs : List α) (i j : Nat) : (swap xs i j).Perm xs := by
  rw [swap]
  split
  · case isTrue h =>
    have hp : (xs.toArray.swap i j h.1 h.2).Perm xs.toArray := Array.swap_perm h.1 h.2
    rw [List.swap_toArray, Array.perm_iff_toList_perm] at hp
    exact hp
  · exact .refl _

theorem swap_getD (x₀ : α) {xs : List α} (hi : i < xs.length) (hj : j < xs.length) :
    (swap xs i j).getD k x₀ =
      if k = i then xs.getD j x₀ else if k = j then xs.getD i x₀ else xs.getD k x₀ := by
  rw [swap_eq hi hj, List.getD_eq_getElem?_getD, List.getD_eq_getElem _ _ hi,
    List.getD_eq_getElem _ _ hj, List.getElem?_set, List.length_set, List.getElem?_set]
  by_cases hkj : j = k
  · subst hkj
    rw [if_pos rfl, if_pos hj, Option.getD_some]
    by_cases hji : j = i
    · subst hji
      rw [if_pos rfl]
    · rw [if_neg hji, if_pos rfl]
  · rw [if_neg hkj]
    by_cases hki : i = k
    · subst hki
      rw [if_pos rfl, if_pos hi, if_pos rfl, Option.getD_some]
    · rw [if_neg hki, if_neg (Ne.symm hki), if_neg (Ne.symm hkj), ← List.getD_eq_getElem?_getD]

theorem swap_map (f : α → β) (xs : List α) (i j : Nat) :
    swap (xs.map f) i j = (swap xs i j).map f := by
  by_cases h : i < xs.length ∧ j < xs.length
  · have h' : i < (xs.map f).length ∧ j < (xs.map f).length := by
      rw [List.length_map]
      exact h
    rw [swap_eq h'.1 h'.2, swap_eq h.1 h.2, List.map_set, List.map_set, List.getElem_map,
      List.getElem_map]
  · have h' : ¬ (i < (xs.map f).length ∧ j < (xs.map f).length) := by
      rw [List.length_map]
      exact h
    rw [swap, dif_neg h', swap, dif_neg h]

theorem swap_append {xs : List α} (hi : i < xs.length) (hj : j < xs.length) (ys : List α) :
    swap (xs ++ ys) i j = swap xs i j ++ ys := by
  have hlen : xs.length ≤ (xs ++ ys).length := by
    rw [List.length_append]
    exact Nat.le_add_right _ _
  rw [swap_eq (Nat.lt_of_lt_of_le hi hlen) (Nat.lt_of_lt_of_le hj hlen), swap_eq hi hj,
    List.getElem_append_left hi, List.getElem_append_left hj, List.set_append_left _ _ hi,
    List.set_append_left]
  rw [List.length_set]
  exact hj

/-- The swaps one after the other. -/
def replay (swaps : List (Nat × Nat)) (xs : List α) : List α :=
  swaps.foldl (fun xs p => swap xs p.1 p.2) xs

/-- All the places of the swaps are below. -/
def Within (n : Nat) (swaps : List (Nat × Nat)) : Prop := ∀ p ∈ swaps, p.1 < n ∧ p.2 < n

theorem replay_length (swaps : List (Nat × Nat)) (xs : List α) :
    (replay swaps xs).length = xs.length := by
  induction swaps generalizing xs with
  | nil => rfl
  | cons p swaps ih => exact (ih _).trans (swap_length xs p.1 p.2)

theorem replay_perm (swaps : List (Nat × Nat)) (xs : List α) : (replay swaps xs).Perm xs := by
  induction swaps generalizing xs with
  | nil => exact .refl _
  | cons p swaps ih => exact (ih _).trans (swap_perm xs p.1 p.2)

theorem replay_map (f : α → β) (swaps : List (Nat × Nat)) (xs : List α) :
    replay swaps (xs.map f) = (replay swaps xs).map f := by
  induction swaps generalizing xs with
  | nil => rfl
  | cons p swaps ih =>
    rw [replay, List.foldl_cons, swap_map]
    exact ih _

theorem replay_append {swaps : List (Nat × Nat)} {xs : List α} (h : Within xs.length swaps)
    (ys : List α) : replay swaps (xs ++ ys) = replay swaps xs ++ ys := by
  induction swaps generalizing xs with
  | nil => rfl
  | cons p swaps ih =>
    obtain ⟨hp, hrest⟩ := List.forall_mem_cons.1 h
    rw [replay, List.foldl_cons, swap_append hp.1 hp.2]
    apply ih
    rw [swap_length]
    exact hrest

section SelectionSort

variable {α : Type} [LinearOrder α] [Inhabited α]

/-- The place of the least element from a place on. -/
def minFrom (xs : List α) (i : Nat) : Nat :=
  (List.range' (i + 1) (xs.length - (i + 1))).foldl
    (fun m j => if xs.getD j default < xs.getD m default then j else m) i

def selectStep (s : List α × List (Nat × Nat)) (i : Nat) : List α × List (Nat × Nat) :=
  if minFrom s.1 i = i then s else (swap s.1 i (minFrom s.1 i), s.2 ++ [(i, minFrom s.1 i)])

/-- Selection sort with the swaps it makes. -/
def selectionSort (xs : List α) : List α × List (Nat × Nat) :=
  (List.range (xs.length - 1)).foldl selectStep (xs, [])

/-- The search that goes on for so many places. -/
theorem least_foldl {xs : List α} (hi : i < xs.length) (hn : i + 1 + n ≤ xs.length) :
    let l := (List.range' (i + 1) n).foldl
      (fun m j => if xs.getD j default < xs.getD m default then j else m) i
    i ≤ l ∧ l < xs.length ∧
      ∀ k, i ≤ k → k < i + 1 + n → xs.getD l default ≤ xs.getD k default := by
  induction n with
  | zero =>
    refine ⟨Nat.le_refl i, hi, fun k hk hki => ?_⟩
    have he : k = i := by omega
    rw [he]
    exact le_refl _
  | succ n ih =>
    obtain ⟨hil, hl, hle⟩ := ih (by omega)
    dsimp only
    rw [List.range'_concat, List.foldl_append, List.foldl_cons, List.foldl_nil, Nat.one_mul]
    split
    · case isTrue hlt =>
      refine ⟨by omega, by omega, fun k hk hkn => ?_⟩
      rcases Nat.lt_succ_iff_lt_or_eq.1 hkn with hkn | rfl
      · exact le_trans (le_of_lt hlt) (hle k hk hkn)
      · exact le_refl _
    · case isFalse hge =>
      refine ⟨hil, hl, fun k hk hkn => ?_⟩
      rcases Nat.lt_succ_iff_lt_or_eq.1 hkn with hkn | rfl
      · exact hle k hk hkn
      · exact not_lt.1 hge

theorem minFrom_spec {xs : List α} (hi : i < xs.length) :
    i ≤ minFrom xs i ∧ minFrom xs i < xs.length ∧
      ∀ k, i ≤ k → k < xs.length → xs.getD (minFrom xs i) default ≤ xs.getD k default := by
  obtain ⟨hle, hlt, hmin⟩ := least_foldl (n := xs.length - (i + 1)) hi (by omega)
  exact ⟨hle, hlt, fun k hk hkn => hmin k hk (by omega)⟩

/-- The places up to one are in their final order, and the swaps so far lead there. -/
structure Selected (xs : List α) (n : Nat) (s : List α × List (Nat × Nat)) : Prop where
  replays : replay s.2 xs = s.1
  within : Within xs.length s.2
  least : ∀ i < n, ∀ k, i ≤ k → k < xs.length → s.1.getD i default ≤ s.1.getD k default

theorem Selected.length {xs : List α} (h : Selected xs n s) : s.1.length = xs.length := by
  rw [← h.replays, replay_length]

theorem Selected.step {xs : List α} (h : Selected xs n s) (hn : n < xs.length) :
    Selected xs (n + 1) (selectStep s n) := by
  have hlen := h.length
  obtain ⟨hle, hlt, hmin⟩ := minFrom_spec (hlen.symm ▸ hn : n < s.1.length)
  rw [selectStep]
  split
  · case isTrue hsame =>
    refine ⟨h.replays, h.within, fun i hi k hk hkn => ?_⟩
    rcases Nat.lt_succ_iff_lt_or_eq.1 hi with hi | rfl
    · exact h.least i hi k hk hkn
    · rw [hsame] at hmin
      exact hmin k hk (hlen.symm ▸ hkn)
  · case isFalse hmoved =>
    have hn' : n < s.1.length := hlen.symm ▸ hn
    refine ⟨?_, ?_, fun i hi k hk hkn => ?_⟩
    · rw [replay, List.foldl_append]
      exact congrArg (swap · n (minFrom s.1 n)) h.replays
    · intro p hp
      rcases List.mem_append.1 hp with hp | hp
      · exact h.within p hp
      · rw [List.mem_singleton.1 hp]
        exact ⟨hn, hlen ▸ hlt⟩
    · dsimp only
      rw [swap_getD _ hn' hlt, swap_getD _ hn' hlt]
      rcases Nat.lt_succ_iff_lt_or_eq.1 hi with hi | rfl
      · rw [if_neg (by omega), if_neg (by omega)]
        split
        · exact h.least i hi _ (by omega) (hlen ▸ hlt)
        · split
          · exact h.least i hi _ (by omega) hn
          · exact h.least i hi k hk hkn
      · rw [if_pos rfl]
        split
        · exact le_refl _
        · split
          · exact hmin i (Nat.le_refl i) hn'
          · exact hmin k hk (hlen.symm ▸ hkn)

/-- The list is sorted by its swaps. -/
theorem selectionSort_spec (xs : List α) :
    replay (selectionSort xs).2 xs = (selectionSort xs).1 ∧
      Within xs.length (selectionSort xs).2 ∧ (selectionSort xs).1.Pairwise (· ≤ ·) := by
  have hrun : ∀ n ≤ xs.length - 1,
      Selected xs n ((List.range n).foldl selectStep (xs, [])) := by
    intro n hn
    induction n with
    | zero =>
      exact ⟨rfl, fun _ hp => (List.not_mem_nil hp).elim, fun i hi => (Nat.not_lt_zero i hi).elim⟩
    | succ n ih =>
      rw [List.range_succ, List.foldl_append]
      exact (ih (by omega)).step (by omega)
  have hsel := hrun _ (Nat.le_refl _)
  refine ⟨hsel.replays, hsel.within, List.pairwise_iff_getElem.2 fun i k hi hk hik => ?_⟩
  have hlen := hsel.length
  rw [← List.getD_eq_getElem _ default hi, ← List.getD_eq_getElem _ default hk]
  exact hsel.least i (by rw [selectionSort] at hk; omega) k (Nat.le_of_lt hik) (hlen ▸ hk)

end SelectionSort
end ActQuant.Lib
