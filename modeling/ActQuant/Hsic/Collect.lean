import ActQuant.Lib.FloatFormat
import ActQuant.Lib.Lists
import ActQuant.Lib.Partition
import ActQuant.Lib.Sums

namespace ActQuant.Hsic
open ActQuant.Lib

variable {σ τ ι K : Type}

/-- What one forward pass and the calibration set give for one frame: pooled rows and targets. -/
structure Frames (σ τ ι K : Type) where
  pooledX : σ → ι → K
  pooledIn : τ → σ → ι → K
  pooledOut : τ → σ → ι → K
  gtActions : σ → ι → K

structure Activations (τ ι K : Type) where
  xActs : List (ι → K)
  yActs : List (ι → K)
  inActs : τ → List (ι → K)
  outActs : τ → List (ι → K)

/-- `np.concatenate` along the rows, which refuses an empty list of arrays. -/
def concatenate (arrays : List (List α)) : Option (List α) :=
  if arrays = [] then none else some arrays.flatten

def column (rows : List (ι → K)) (c : ι) : List K := rows.map (· c)

section Collect
variable [Field K] [LinearOrder K]

/-- `(Y_raw - Y_raw.mean(axis=0)) / (Y_raw.std(axis=0) + 1e-8)`. -/
def standardize (r : SquareRoot K) (rows : List (ι → K)) : List (ι → K) :=
  rows.map fun row c => standardScore r stdEps (column rows c) (row c)

def collectActivations (r : SquareRoot K) (M : Frames σ τ ι K) (batchSize : Nat)
    (indices : List σ) : Option (Activations τ ι K) := do
  let buckets (pooled : σ → ι → K) := (batches batchSize indices).map (List.map pooled)
  let xActs ← concatenate (buckets M.pooledX)
  let yRaw ← concatenate (buckets M.gtActions)
  return { xActs
           yActs := standardize r yRaw
           inActs := fun k => (buckets (M.pooledIn k)).flatten
           outActs := fun k => (buckets (M.pooledOut k)).flatten }

/-- The nonempty slices of `ceil(n / num_gpus)` frames that go to the workers. -/
def shards (numGpus : Nat) (indices : List σ) : List (List σ) :=
  let n := indices.length
  let chunk := (n + numGpus - 1) / numGpus
  let chunks := (List.range numGpus).map fun i => (i * chunk, min ((i + 1) * chunk) n)
  (chunks.filter fun c => c.1 < c.2).map fun c => slice indices c.1 c.2

/-- `astype(np.float16)` of the rows. -/
def castRows (half : K → K) (rows : List (ι → K)) : List (ι → K) :=
  rows.map fun row c => half (row c)

/-- `_gpu_worker`: what it collects is written to its file in half precision. -/
def gpuWorker (half : K → K) (r : SquareRoot K) (M : Frames σ τ ι K) (batchSize : Nat)
    (indices : List σ) : Option (Activations τ ι K) :=
  (collectActivations r M batchSize indices).map fun a =>
    { xActs := castRows half a.xActs
      yActs := castRows half a.yActs
      inActs := fun k => castRows half (a.inActs k)
      outActs := fun k => castRows half (a.outActs k) }

/-- `collect_acts_multi_gpu`: the workers' files, concatenated in the order of the shards. -/
def collectActsMultiGpu (half : K → K) (r : SquareRoot K) (M : Frames σ τ ι K)
    (batchSize numGpus : Nat) (indices : List σ) : Option (Activations τ ι K) := do
  let results ← (shards numGpus indices).mapM (gpuWorker half r M batchSize)
  let xActs ← concatenate (results.map (·.xActs))
  let yActs ← concatenate (results.map (·.yActs))
  return { xActs
           yActs
           inActs := fun k => (results.map (·.inActs k)).flatten
           outActs := fun k => (results.map (·.outActs k)).flatten }

end Collect

section Shards
variable {indices : List σ} {g : Nat}

theorem flatten_filter_slices (cs : List (Nat × Nat)) :
    ((cs.filter fun c => c.1 < c.2).map fun c => slice indices c.1 c.2).flatten =
      (cs.map fun c => slice indices c.1 c.2).flatten := by
  induction cs with
  | nil => rfl
  | cons c cs ih =>
    by_cases hc : c.1 < c.2
    · rw [List.filter_cons_of_pos (by simpa using hc)]
      simp only [List.map_cons, List.flatten_cons, ih]
    · rw [List.filter_cons_of_neg (by simpa using hc), ih]
      simp only [List.map_cons, List.flatten_cons, slice_eq_nil (not_lt.1 hc), List.nil_append]

theorem flatten_shards (hg : 0 < g) (indices : List σ) : (shards g indices).flatten = indices := by
  have hmono : Monotone fun i =>
      min (i * ((indices.length + g - 1) / g)) indices.length := by
    intro i j hij
    exact min_le_min_right _ (Nat.mul_le_mul_right _ hij)
  have hcuts : ((List.range g).map fun i => (i * ((indices.length + g - 1) / g),
        min ((i + 1) * ((indices.length + g - 1) / g)) indices.length)).map
        (fun c => slice indices c.1 c.2) =
      cuts (fun i => min (i * ((indices.length + g - 1) / g)) indices.length) g indices := by
    rw [List.map_map]
    apply List.map_congr_left
    intro i _
    exact (slice_min_length _ _ _).symm
  have hcover := le_ceilDiv_mul hg indices.length
  rw [Nat.mul_comm] at hcover
  rw [shards, flatten_filter_slices, hcuts, flatten_cuts hmono (by simp)]
  exact List.take_of_length_le (le_min hcover le_rfl)

theorem ne_nil_of_mem_shards (h : shard ∈ shards g indices) : shard ≠ [] := by
  obtain ⟨c, hc, rfl⟩ := List.mem_map.1 h
  obtain ⟨hmem, hlt⟩ := List.mem_filter.1 hc
  obtain ⟨i, _, rfl⟩ := List.mem_map.1 hmem
  exact slice_ne_nil (of_decide_eq_true hlt) (Nat.min_le_right _ _)

theorem shards_ne_nil (hg : 0 < g) (hne : indices ≠ []) : shards g indices ≠ [] := by
  intro hnil
  have hflat := flatten_shards hg indices
  rw [hnil] at hflat
  exact hne hflat.symm

theorem shards_nil (g : Nat) : shards g ([] : List σ) = [] := by
  rw [List.eq_nil_iff_forall_not_mem]
  intro shard hshard
  rcases Nat.eq_zero_or_pos g with rfl | hg
  · cases hshard
  · have hflat := flatten_shards hg ([] : List σ)
    rw [List.flatten_eq_nil_iff] at hflat
    exact ne_nil_of_mem_shards hshard (hflat shard hshard)

end Shards

section Agreement
variable {b g : Nat} {indices : List σ}

theorem concatenate_of_ne_nil {arrays : List (List α)} (h : arrays ≠ []) :
    concatenate arrays = some arrays.flatten := if_neg h

theorem flatten_map_batches (hb : 0 < b) (pooled : σ → ι → K) :
    ((batches b indices).map (List.map pooled)).flatten = indices.map pooled := by
  rw [← List.map_flatten, flatten_batches hb]

variable [Field K] [LinearOrder K] {half : K → K} {r : SquareRoot K} {M : Frames σ τ ι K}

theorem collectActivations_eq (hb : 0 < b) (hne : indices ≠ []) :
    collectActivations r M b indices = some
      { xActs := indices.map M.pooledX
        yActs := standardize r (indices.map M.gtActions)
        inActs := fun k => indices.map (M.pooledIn k)
        outActs := fun k => indices.map (M.pooledOut k) } := by
  have hbatches : batches b indices ≠ [] := by
    intro hnil
    have hflat := flatten_batches hb indices
    rw [hnil] at hflat
    exact hne hflat.symm
  have hbuckets (pooled : σ → ι → K) : (batches b indices).map (List.map pooled) ≠ [] :=
    fun h => hbatches (List.map_eq_nil_iff.1 h)
  simp only [collectActivations, concatenate_of_ne_nil (hbuckets _), flatten_map_batches hb,
    Option.bind_eq_bind, Option.bind_some, Option.pure_def]

theorem gpuWorker_eq (hb : 0 < b) (hne : indices ≠ []) :
    gpuWorker half r M b indices = some
      { xActs := castRows half (indices.map M.pooledX)
        yActs := castRows half (standardize r (indices.map M.gtActions))
        inActs := fun k => castRows half (indices.map (M.pooledIn k))
        outActs := fun k => castRows half (indices.map (M.pooledOut k)) } := by
  rw [gpuWorker, collectActivations_eq hb hne]
  rfl

/-- The shards' runs collect the same rows in half precision, but standardize the targets shard by
shard. -/
theorem collectActsMultiGpu_eq (hb : 0 < b) (hg : 0 < g) (hne : indices ≠ []) :
    collectActsMultiGpu half r M b g indices = some
      { xActs := castRows half (indices.map M.pooledX)
        yActs := ((shards g indices).map fun shard =>
          castRows half (standardize r (shard.map M.gtActions))).flatten
        inActs := fun k => castRows half (indices.map (M.pooledIn k))
        outActs := fun k => castRows half (indices.map (M.pooledOut k)) } := by
  have hflat := flatten_shards hg indices
  have hshards := shards_ne_nil hg hne
  have hrows (pooled : σ → ι → K) :
      ((shards g indices).map fun shard => castRows half (shard.map pooled)).flatten =
        castRows half (indices.map pooled) := by
    simp only [castRows, List.map_map]
    rw [← List.map_flatten, hflat]
  have hruns := mapM_eq_some_map (l := shards g indices)
    (f := gpuWorker half r M b) fun shard hshard =>
      gpuWorker_eq hb (ne_nil_of_mem_shards hshard)
  simp only [collectActsMultiGpu, hruns, Option.bind_eq_bind, Option.bind_some, List.map_map,
    Function.comp_def, concatenate, List.map_eq_nil_iff, hshards, if_false, hrows,
    Option.pure_def]

omit [Field K] [LinearOrder K] in
theorem castRows_map_eq_iff (pooled : σ → ι → K) :
    castRows half (indices.map pooled) = indices.map pooled ↔
      ∀ d ∈ indices, ∀ c, half (pooled d c) = pooled d c := by
  rw [castRows, List.map_map, List.map_inj_left]
  simp only [funext_iff, Function.comp_apply]

/-- Half precision has all that a frame is pooled to. -/
structure Frames.KeptBy (M : Frames σ τ ι K) (half : K → K) (d : σ) : Prop where
  x : ∀ c, half (M.pooledX d c) = M.pooledX d c
  input : ∀ k c, half (M.pooledIn k d c) = M.pooledIn k d c
  output : ∀ k c, half (M.pooledOut k d c) = M.pooledOut k d c

omit [Field K] [LinearOrder K] in
/-- The pooled rows of the workers are those of one run exactly where half precision has them. -/
theorem pooled_agree_iff :
    (castRows half (indices.map M.pooledX) = indices.map M.pooledX ∧
      (fun k => castRows half (indices.map (M.pooledIn k))) =
        (fun k => indices.map (M.pooledIn k)) ∧
      (fun k => castRows half (indices.map (M.pooledOut k))) =
        (fun k => indices.map (M.pooledOut k))) ↔ ∀ d ∈ indices, M.KeptBy half d := by
  simp only [funext_iff (β := fun _ => List (ι → K)), castRows_map_eq_iff]
  constructor
  · rintro ⟨hx, hin, hout⟩ d hd
    exact ⟨hx d hd, fun k => hin k d hd, fun k => hout k d hd⟩
  · exact fun h => ⟨fun d hd => (h d hd).x, fun k d hd => (h d hd).input k,
      fun k d hd => (h d hd).output k⟩

/-- A column of a shard has the scale of the whole column, or sits at its mean throughout. -/
def SameScale (r : SquareRoot K) (shard indices : List K) : Prop :=
  (mean shard = mean indices ∧ std r shard = std r indices) ∨ ∀ y ∈ shard, y = mean indices

instance : Decidable (SameScale r ys zs) :=
  inferInstanceAs (Decidable ((_ ∧ _) ∨ ∀ y ∈ ys, y = mean zs))

/-- The targets of a shard come out with the scores of the whole column: they have its scale, and
half precision has the scores, or it rounds the shard's own scores to them. -/
def SameScores (half : K → K) (r : SquareRoot K) (shard indices : List K) : Prop :=
  if SameScale r shard indices then
    ∀ y ∈ shard, half (standardScore r stdEps indices y) = standardScore r stdEps indices y
  else ∀ y ∈ shard, half (standardScore r stdEps shard y) = standardScore r stdEps indices y

variable [IsStrictOrderedRing K]

theorem sameScores_iff {shard all : List K} (hne : shard ≠ []) :
    SameScores half r shard all ↔
      ∀ y ∈ shard, half (standardScore r stdEps shard y) = standardScore r stdEps all y := by
  rw [SameScores]
  split
  case isTrue hscale =>
    have hagree := (standardScore_agree_iff r stdEps_pos hne).2 hscale
    constructor
    · exact fun h y hy => (hagree y hy).symm ▸ h y hy
    · exact fun h y hy => by rw [← hagree y hy]; exact (h y hy).trans (hagree y hy).symm
  case isFalse => exact Iff.rfl

theorem standardize_shard_iff {rows all : List (ι → K)} (hne : rows ≠ []) :
    castRows half (standardize r rows) =
        (rows.map fun row c => standardScore r stdEps (column all c) (row c)) ↔
      ∀ c, SameScores half r (column rows c) (column all c) := by
  have hcol (c : ι) : column rows c ≠ [] := fun hnil => hne (List.map_eq_nil_iff.1 hnil)
  rw [castRows, standardize, List.map_map, List.map_inj_left]
  constructor
  · intro h c
    apply (sameScores_iff (hcol c)).2
    intro y hy
    obtain ⟨row, hrow, rfl⟩ := List.mem_map.1 hy
    exact congrFun (h row hrow) c
  · intro h row hrow
    funext c
    exact (sameScores_iff (hcol c)).1 (h c) _ (List.mem_map_of_mem hrow)

theorem yActs_agree_iff (hg : 0 < g) :
    ((shards g indices).map fun shard =>
        castRows half (standardize r (shard.map M.gtActions))).flatten =
        standardize r (indices.map M.gtActions) ↔
      ∀ shard ∈ shards g indices, ∀ c,
        SameScores half r (column (shard.map M.gtActions) c)
          (column (indices.map M.gtActions) c) := by
  have hparts (score : (ι → K) → ι → K) : ((shards g indices).map fun shard =>
      (shard.map M.gtActions).map score).flatten = (indices.map M.gtActions).map score := by
    conv_rhs => rw [← flatten_shards hg indices]
    simp only [List.map_flatten, List.map_map, Function.comp_def]
  rw [standardize, ← hparts, flatten_map_eq_iff fun _ _ => by simp [castRows, standardize]]
  constructor
  · intro h shard hshard
    have hne : shard.map M.gtActions ≠ [] :=
      fun hnil => ne_nil_of_mem_shards hshard (List.map_eq_nil_iff.1 hnil)
    exact (standardize_shard_iff hne).1 (h shard hshard)
  · intro h shard hshard
    have hne : shard.map M.gtActions ≠ [] :=
      fun hnil => ne_nil_of_mem_shards hshard (List.map_eq_nil_iff.1 hnil)
    exact (standardize_shard_iff hne).2 (h shard hshard)

/-- Two frames whose targets differ, one frame to a shard. -/
def twoFrames : Frames Nat Unit Unit ℚ where
  pooledX d _ := d
  pooledIn _ d _ := d
  pooledOut _ d _ := d
  gtActions d _ := d

end Agreement

end ActQuant.Hsic
