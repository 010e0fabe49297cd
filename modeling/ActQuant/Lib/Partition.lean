import Mathlib.Algebra.Order.BigOperators.Group.List
import Mathlib.Algebra.Order.Ring.Nat

namespace ActQuant.Lib

def slice (xs : List α) (s e : Nat) : List α := (xs.drop s).take (e - s)

/-- Cut a list into `k` consecutive slices at a sequence of points. -/
def cuts (p : Nat → Nat) (k : Nat) (xs : List α) : List (List α) :=
  (List.range k).map fun i => slice xs (p i) (p (i + 1))

theorem slice_of_length_le (h : xs.length ≤ s) : slice xs s e = [] := by
  rw [slice, List.drop_eq_nil_of_le h, List.take_nil]

theorem slice_length_le (xs : List α) (s e : Nat) : (slice xs s e).length ≤ e - s := by
  rw [slice, List.length_take]
  exact Nat.min_le_left _ _

theorem slice_eq_nil (h : e ≤ s) : slice xs s e = [] := by
  rw [slice, Nat.sub_eq_zero_of_le h, List.take_zero]

theorem slice_min_length (xs : List α) (s e : Nat) :
    slice xs (min s xs.length) e = slice xs s e := by
  rcases Nat.le_total s xs.length with h | h
  · rw [Nat.min_eq_left h]
  · rw [slice_of_length_le h, slice_of_length_le (Nat.min_eq_right h).ge]

theorem slice_ne_nil (hlt : s < e) (hle : e ≤ xs.length) : slice xs s e ≠ [] := by
  apply List.ne_nil_of_length_pos
  rw [slice, List.length_take, List.length_drop]
  omega

theorem getElem?_slice (hc : c < n) : (slice xs s (s + n))[c]? = xs[s + c]? := by
  rw [slice, Nat.add_sub_cancel_left, List.getElem?_take_of_lt hc, List.getElem?_drop]

theorem length_slice {xs : List α} (h : s + n ≤ xs.length) : (slice xs s (s + n)).length = n := by
  rw [slice, List.length_take, List.length_drop]
  omega

/-- Of rows of one length put one after the other, each slice is a row. -/
theorem slice_flatMap_range {f : Nat → List α} (hlen : ∀ i < k, (f i).length = n) (hr : r < k) :
    slice ((List.range k).flatMap f) (r * n) (r * n + n) = f r := by
  have htotal (j : Nat) (hj : j ≤ k) : ((List.range j).flatMap f).length = j * n := by
    induction j with
    | zero => rw [List.range_zero, List.flatMap_nil, List.length_nil, Nat.zero_mul]
    | succ j ih =>
      rw [List.range_succ, List.flatMap_append, List.flatMap_singleton, List.length_append,
        ih (Nat.le_of_succ_le hj), hlen j hj, Nat.succ_mul]
  have hk : k = r + 1 + (k - (r + 1)) := (Nat.add_sub_of_le hr).symm
  rw [hk, List.range_add, List.range_succ, List.flatMap_append, List.flatMap_append,
    List.flatMap_singleton, slice, List.append_assoc, List.drop_left' (htotal r hr.le),
    Nat.add_sub_cancel_left, List.take_left' (hlen r hr)]

/-- Slices at increasing points put the list together again, up to the last point. -/
theorem flatten_cuts (hp : Monotone p) (h₀ : p 0 = 0) (k : Nat) (xs : List α) :
    (cuts p k xs).flatten = xs.take (p k) := by
  induction k with
  | zero => simp only [cuts, List.range_zero, List.map_nil, List.flatten_nil, h₀, List.take_zero]
  | succ k ih =>
    have hadd : p (k + 1) = p k + (p (k + 1) - p k) := by
      have hle : p k ≤ p (k + 1) := hp (Nat.le_add_right k 1)
      omega
    simp only [cuts] at ih
    rw [cuts, List.range_succ, List.map_append, List.flatten_append, ih, List.map_singleton,
      List.flatten_singleton, slice, ← List.take_add, ← hadd]

section Batches
variable {b : Nat} {xs : List α}

/-- `xs[start:min(start + b, n)]` for each `start` of `range(0, n, b)`. -/
def batches (b : Nat) (xs : List α) : List (List α) :=
  (List.range ((xs.length + b - 1) / b)).map fun i =>
    slice xs (i * b) (min (i * b + b) xs.length)

theorem le_ceilDiv_mul (hb : 0 < b) (n : Nat) : n ≤ (n + b - 1) / b * b := by
  have hdiv := Nat.div_add_mod (n + b - 1) b
  have hmod := Nat.mod_lt (n + b - 1) hb
  rw [Nat.mul_comm] at hdiv
  omega

theorem mul_lt_of_lt_ceilDiv (hi : i < (n + b - 1) / b) : i * b < n := by
  have hb : 0 < b := by
    rcases Nat.eq_zero_or_pos b with rfl | hb
    · simp only [Nat.div_zero, Nat.not_lt_zero] at hi
    · exact hb
  have hle := (Nat.le_div_iff_mul_le hb).1 hi
  rw [Nat.succ_mul] at hle
  omega

theorem batches_eq_cuts :
    batches b xs = cuts (fun i => min (i * b) xs.length) ((xs.length + b - 1) / b) xs := by
  apply List.map_congr_left
  intro i hi
  have hlt := mul_lt_of_lt_ceilDiv (List.mem_range.1 hi)
  simp only [Nat.succ_mul, Nat.min_eq_left hlt.le]

theorem flatten_batches (hb : 0 < b) (xs : List α) : (batches b xs).flatten = xs := by
  have hmono : Monotone fun i => min (i * b) xs.length := by
    intro i j hij
    exact min_le_min_right _ (Nat.mul_le_mul_right b hij)
  rw [batches_eq_cuts, flatten_cuts hmono (by simp)]
  exact List.take_of_length_le (le_min (le_ceilDiv_mul hb _) le_rfl)

theorem length_le_of_mem_batches (h : ys ∈ batches b xs) : ys.length ≤ b := by
  obtain ⟨i, _, rfl⟩ := List.mem_map.1 h
  have hle := slice_length_le xs (i * b) (min (i * b + b) xs.length)
  omega

theorem ne_nil_of_mem_batches (h : ys ∈ batches b xs) : ys ≠ [] := by
  obtain ⟨i, hi, rfl⟩ := List.mem_map.1 h
  have hlt := mul_lt_of_lt_ceilDiv (List.mem_range.1 hi)
  have hb : 0 < b := by
    rcases Nat.eq_zero_or_pos b with rfl | hb
    · simp at hi
    · exact hb
  exact slice_ne_nil (by omega) (Nat.min_le_right _ _)

theorem eq_map_singleton_flatten {yss : List (List α)} (h : ∀ ys ∈ yss, ys.length = 1) :
    yss = yss.flatten.map fun y => [y] := by
  induction yss with
  | nil => rfl
  | cons ys yss ih =>
    obtain ⟨y, rfl⟩ := List.length_eq_one_iff.1 (h ys (.head _))
    rw [List.flatten_cons, List.map_append, ← ih fun zs hzs => h zs (.tail _ hzs)]
    rfl

theorem batches_one (xs : List α) : batches 1 xs = xs.map fun x => [x] := by
  have hone : ∀ ys ∈ batches 1 xs, ys.length = 1 := by
    intro ys hys
    have hle := length_le_of_mem_batches hys
    have hpos := List.length_pos_of_ne_nil (ne_nil_of_mem_batches hys)
    omega
  have hsplit := eq_map_singleton_flatten hone
  rwa [flatten_batches Nat.one_pos] at hsplit

end Batches

section ArraySplit

/-- The shard sizes of `np.array_split`: the first `len % n` shards take one item more. -/
def splitSizes (n len : Nat) : List Nat :=
  List.replicate (len % n) (len / n + 1) ++ List.replicate (n - len % n) (len / n)

/-- `np.array_split`, cutting at the cumulative sums of the sizes. -/
def arraySplit (n : Nat) (xs : List α) : List (List α) :=
  cuts (fun i => ((splitSizes n xs.length).take i).sum) n xs

theorem splitSizes_length (hn : 0 < n) : (splitSizes n len).length = n := by
  have hmod := Nat.mod_lt len hn
  simp only [splitSizes, List.length_append, List.length_replicate]
  omega

theorem splitSizes_sum (hn : 0 < n) : (splitSizes n len).sum = len := by
  have hmod := Nat.mod_lt len hn
  have hdiv := Nat.div_add_mod len n
  have hsplit : n * (len / n) = len % n * (len / n) + (n - len % n) * (len / n) := by
    rw [← Nat.add_mul, Nat.add_sub_cancel' hmod.le]
  simp only [splitSizes, List.sum_append, List.sum_replicate_nat, Nat.mul_succ]
  omega

theorem monotone_sum_take (xs : List Nat) : Monotone fun i => (xs.take i).sum := by
  intro i j hij
  have hsub : (xs.take i).Sublist (xs.take j) := (List.take_prefix_take_left hij).sublist
  exact hsub.sum_le_sum fun _ _ => Nat.zero_le _

theorem flatten_arraySplit (hn : 0 < n) (xs : List α) : (arraySplit n xs).flatten = xs := by
  rw [arraySplit, flatten_cuts (monotone_sum_take _) (by simp)]
  apply List.take_of_length_le
  rw [List.take_of_length_le (splitSizes_length hn).le, splitSizes_sum hn]

end ArraySplit

end ActQuant.Lib
