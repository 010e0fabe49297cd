import ActQuant.Lib.Partition
import ActQuant.Lib.Sums

namespace ActQuant.Fisher
open ActQuant.Lib

section Loops
variable {W K : Type*} [Field K]

/-- One turn of the accumulation loop, for a batch whose gradient is `grad`. -/
def accumulate (grad : β → W → K) (acc : W → K) (batch : β) : W → K :=
  fun w => acc w + grad batch w ^ 2

/-- One turn of the merge loop: `merged += acc`, `total_count += num_frames`. -/
def mergeStep (merged result : (W → K) × Nat) : (W → K) × Nat :=
  (fun w => merged.1 w + result.1 w, merged.2 + result.2)

/-- The merge loop over the workers' results, and the division by the total count. -/
def merge (results : List ((W → K) × Nat)) (w : W) : K :=
  let merged := results.foldl mergeStep (fun _ => 0, 0)
  merged.1 w / merged.2

theorem foldl_accumulate (grad : β → W → K) (bs : List β) (acc : W → K) (w : W) :
    bs.foldl (accumulate grad) acc w = acc w + (bs.map fun b => grad b w ^ 2).sum := by
  induction bs generalizing acc with
  | nil => simp
  | cons b bs ih =>
    rw [List.foldl_cons, ih, List.map_cons, List.sum_cons, accumulate, add_assoc]

theorem foldl_mergeStep (results : List ((W → K) × Nat)) (merged : (W → K) × Nat) :
    (results.foldl mergeStep merged).2 = merged.2 + (results.map (·.2)).sum ∧
      ∀ w, (results.foldl mergeStep merged).1 w = merged.1 w + (results.map (·.1 w)).sum := by
  induction results generalizing merged with
  | nil => simp
  | cons r results ih =>
    obtain ⟨hcount, hsum⟩ := ih (mergeStep merged r)
    rw [List.foldl_cons]
    constructor
    · rw [hcount, List.map_cons, List.sum_cons, mergeStep, Nat.add_assoc]
    · intro w
      rw [hsum, List.map_cons, List.sum_cons, mergeStep, add_assoc]

theorem merge_eq (results : List ((W → K) × Nat)) (w : W) :
    merge results w = (results.map (·.1 w)).sum / ((results.map (·.2)).sum : Nat) := by
  obtain ⟨hcount, hsum⟩ := foldl_mergeStep results ((fun _ => 0 : W → K), 0)
  rw [merge, hcount, hsum, zero_add, Nat.zero_add]

end Loops

section Fisher
variable {W K : Type*} [Field K]

/-- The gradient of a batch-mean loss, frame `d` alone having the gradient `g d`. -/
def batchGrad (g : Nat → W → K) (batch : List Nat) (w : W) : K :=
  (batch.map fun d => g d w).sum / batch.length

/-- `_run_fisher_on_indices`: the accumulated squares and the number of frames. -/
def runFisherOnIndices (g : Nat → W → K) (batchSize : Nat) (indices : List Nat) :
    (W → K) × Nat :=
  let accumulators := (batches batchSize indices).foldl
    (accumulate fun batch => batchGrad g (batch.insertionSort (· ≤ ·))) fun _ => 0
  (accumulators, indices.length)

def computeFisherSingleGpu (g : Nat → W → K) (batchSize : Nat) (indices : List Nat) (w : W) : K :=
  let result := runFisherOnIndices g batchSize indices
  result.1 w / result.2

def computeFisherMultiGpu (g : Nat → W → K) (batchSize numGpus : Nat) (indices : List Nat) :
    W → K :=
  merge ((arraySplit numGpus indices).map (runFisherOnIndices g batchSize))

/-- The documented diagonal: the mean over the frames of the squared gradients. -/
def fisherDiag (g : Nat → W → K) (indices : List Nat) (w : W) : K :=
  (indices.map fun d => g d w ^ 2).sum / indices.length

variable {g : Nat → W → K}

theorem batchGrad_perm (h : xs.Perm ys) (w : W) : batchGrad g xs w = batchGrad g ys w := by
  rw [batchGrad, batchGrad, h.length_eq, (h.map _).sum_eq]

theorem runFisherOnIndices_fst (g : Nat → W → K) (b : Nat) (indices : List Nat) (w : W) :
    (runFisherOnIndices g b indices).1 w =
      ((batches b indices).map fun batch => batchGrad g batch w ^ 2).sum := by
  simp only [runFisherOnIndices, foldl_accumulate, zero_add]
  congr 1
  apply List.map_congr_left
  intro batch _
  rw [batchGrad_perm (List.perm_insertionSort _ _)]

theorem merge_runs (g : Nat → W → K) (b : Nat) (shards : List (List Nat)) (w : W) :
    merge (shards.map (runFisherOnIndices g b)) w =
      ((shards.flatMap (batches b)).map fun batch => batchGrad g batch w ^ 2).sum /
        shards.flatten.length := by
  have hsum : (shards.map fun shard => (runFisherOnIndices g b shard).1 w).sum =
      ((shards.flatMap (batches b)).map fun batch => batchGrad g batch w ^ 2).sum := by
    rw [List.map_flatMap, List.flatMap_def, List.sum_flatten, List.map_map]
    congr 1
    apply List.map_congr_left
    intro shard _
    exact runFisherOnIndices_fst g b shard w
  have hcount : (shards.map fun shard => (runFisherOnIndices g b shard).2).sum =
      shards.flatten.length := by
    rw [List.length_flatten]
    rfl
  rw [merge_eq, List.map_map, List.map_map]
  simp only [Function.comp_def, hsum, hcount]

theorem computeFisherSingleGpu_eq_merge (g : Nat → W → K) (b : Nat) (indices : List Nat) (w : W) :
    computeFisherSingleGpu g b indices w = merge ([indices].map (runFisherOnIndices g b)) w := by
  rw [merge_eq]
  simp [computeFisherSingleGpu]

variable [LinearOrder K] [IsStrictOrderedRing K]

/-- The merge gives the mean square just when no batch mixes frames that have a gradient. -/
theorem merge_runs_eq_fisherDiag_iff {shards : List (List Nat)} (hb : 0 < b)
    (hshards : shards.flatten = indices) :
    merge (shards.map (runFisherOnIndices g b)) w = fisherDiag g indices w ↔
      ∀ batch ∈ shards.flatMap (batches b), batch.length ≤ 1 ∨ ∀ d ∈ batch, g d w = 0 := by
  have hflat : (shards.flatMap (batches b)).flatten = indices := by
    rw [List.flatMap_def, ← hshards]
    simp only [List.flatten_flatten, List.map_map, Function.comp_def, flatten_batches hb,
      List.map_id']
  have hsquares : (indices.map fun d => g d w ^ 2).sum =
      ((shards.flatMap (batches b)).map fun batch =>
        (batch.map fun d => g d w ^ 2).sum).sum := by
    rw [← hflat, List.map_flatten, List.sum_flatten, List.map_map]
    rfl
  have hiff := sum_map_eq_iff_of_le (l := shards.flatMap (batches b))
    (f := fun batch => batchGrad g batch w ^ 2)
    (g := fun batch => (batch.map fun d => g d w ^ 2).sum) (fun _ _ => sq_mean_le_sum_sq)
  rw [merge_runs, fisherDiag, hshards, hsquares]
  simp only [batchGrad, sq_mean_eq_sum_sq_iff] at hiff ⊢
  rcases Nat.eq_zero_or_pos indices.length with hzero | hpos
  · rw [hzero, Nat.cast_zero, div_zero, div_zero]
    rw [List.length_eq_zero_iff.1 hzero, List.flatten_eq_nil_iff] at hflat
    refine iff_of_true rfl fun batch hbatch => .inl ?_
    rw [hflat batch hbatch]
    exact Nat.zero_le _
  · have hne : (indices.length : K) ≠ 0 := Nat.cast_ne_zero.2 hpos.ne'
    rw [div_left_inj' hne]
    exact hiff

/-- Both drivers give the documented diagonal exactly when no batch of theirs mixes frames. -/
theorem computeFisher_eq_fisherDiag_iff (g : Nat → W → K) (indices : List Nat) (w : W)
    (hb : 0 < b) (hn : 0 < n) :
    (computeFisherMultiGpu g b n indices w = fisherDiag g indices w ↔
      ∀ batch ∈ (arraySplit n indices).flatMap (batches b),
        batch.length ≤ 1 ∨ ∀ d ∈ batch, g d w = 0) ∧
    (computeFisherSingleGpu g b indices w = fisherDiag g indices w ↔
      ∀ batch ∈ batches b indices, batch.length ≤ 1 ∨ ∀ d ∈ batch, g d w = 0) := by
  constructor
  · exact merge_runs_eq_fisherDiag_iff hb (flatten_arraySplit hn indices)
  · rw [computeFisherSingleGpu_eq_merge]
    have hiff := merge_runs_eq_fisherDiag_iff (g := g) (w := w) hb
      (List.flatten_singleton (l := indices))
    rwa [List.flatMap_singleton] at hiff

theorem computeFisher_eq_fisherDiag_iff_opposite :
    let g : Nat → Unit → ℚ := fun d _ => if d = 0 then 1 else -1
    (computeFisherMultiGpu g 2 2 [0, 1, 2] () = fisherDiag g [0, 1, 2] () ↔
      ∀ batch ∈ (arraySplit 2 [0, 1, 2]).flatMap (batches 2),
        batch.length ≤ 1 ∨ ∀ d ∈ batch, g d () = 0) ∧
    (computeFisherSingleGpu g 2 [0, 1, 2] () = fisherDiag g [0, 1, 2] () ↔
      ∀ batch ∈ batches 2 [0, 1, 2], batch.length ≤ 1 ∨ ∀ d ∈ batch, g d () = 0) :=
  computeFisher_eq_fisherDiag_iff _ _ _ (by decide) (by decide)

/-- In one batch, opposite gradients cancel before they are squared. -/
theorem computeFisher_cancels :
    let g : Nat → Unit → ℚ := fun d _ => if d = 0 then 1 else -1
    computeFisherMultiGpu g 2 1 [0, 1] () = 0 ∧
      computeFisherMultiGpu g 1 1 [0, 1] () = 1 ∧
      computeFisherMultiGpu g 2 2 [0, 1] () = 1 ∧
      fisherDiag g [0, 1] () = 1 := by
  decide +kernel

end Fisher

end ActQuant.Fisher
