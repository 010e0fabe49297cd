import ActQuant.Hsic.CollectTensor
import Mathlib.LinearAlgebra.Matrix.Trace

namespace ActQuant.Hsic
open ActQuant.Lib Matrix

variable {n : Nat} {R : Type} [Field R]

/-- `K.sub_(K.mean(dim=0, keepdim=True))`: every column loses its mean. -/
def center (K : Matrix (Fin n) (Fin n) R) : Matrix (Fin n) (Fin n) R :=
  fun i j => K i j - (∑ k, K k j) / n

/-- `_trace_AB`: the rows in slices of a chunk, each with the columns of the other matrix. -/
def traceAB (A B : Matrix (Fin n) (Fin n) R) (chunk : Nat) : R :=
  (batches chunk (List.finRange n)).foldl
    (fun total rows => total + (rows.map fun i => ∑ j, A i j * Bᵀ i j).sum) 0

/-- `_trace_AB(_center(K), _center(L)) / n2`. -/
def hsicGpu (chunk : Nat) (K L : Matrix (Fin n) (Fin n) R) : R :=
  traceAB (center K) (center L) chunk / ((n : R) - 1) ^ 2

/-- `np.eye(n) - np.ones((n, n)) / n`. -/
def centeringMatrix (n : Nat) (R : Type) [Field R] : Matrix (Fin n) (Fin n) R :=
  fun i j => (if i = j then 1 else 0) - 1 / n

/-- `hsic` of `hsic_utils`. -/
def hsic (K L H : Matrix (Fin n) (Fin n) R) : R :=
  let HK := H * K
  let HL := H * L
  (∑ i, ∑ j, HK i j * HLᵀ i j) / ((n : R) - 1) ^ 2

variable {K L A B : Matrix (Fin n) (Fin n) R}

theorem center_eq_mul (K : Matrix (Fin n) (Fin n) R) : center K = centeringMatrix n R * K := by
  ext i j
  simp only [center, centeringMatrix, mul_apply, sub_mul, ite_mul, one_mul, zero_mul,
    Finset.sum_sub_distrib, Finset.sum_ite_eq, Finset.mem_univ, if_true]
  rw [← Finset.mul_sum, one_div, div_eq_inv_mul]

theorem foldl_add_eq_sum (f : α → R) (xs : List α) (r : R) :
    xs.foldl (fun total x => total + f x) r = r + (xs.map f).sum := by
  induction xs generalizing r with
  | nil => rw [List.foldl_nil, List.map_nil, List.sum_nil, add_zero]
  | cons x xs ih => rw [List.foldl_cons, ih, List.map_cons, List.sum_cons, add_assoc]

/-- Each row block is added exactly once, the short last one too. -/
theorem traceAB_eq_trace (hc : 0 < chunk) : traceAB A B chunk = trace (A * B) := by
  have hblocks : ((batches chunk (List.finRange n)).map fun rows =>
      (rows.map fun i => ∑ j, A i j * Bᵀ i j).sum).sum =
        ((List.finRange n).map fun i => ∑ j, A i j * Bᵀ i j).sum := by
    conv_rhs => rw [← flatten_batches hc (List.finRange n)]
    rw [List.map_flatten, List.sum_flatten, List.map_map]
    rfl
  rw [traceAB, foldl_add_eq_sum, zero_add, hblocks, ← List.ofFn_eq_map, List.sum_ofFn]
  rfl

theorem hsic_eq_trace (K L H : Matrix (Fin n) (Fin n) R) :
    hsic K L H = trace (K * H * L * H) / ((n : R) - 1) ^ 2 := by
  have hsum : ∑ i, ∑ j, (H * K) i j * (H * L)ᵀ i j = trace (H * K * (H * L)) := rfl
  rw [hsic, hsum, ← Matrix.mul_assoc, Matrix.mul_assoc (H * K), Matrix.mul_assoc H,
    trace_mul_comm H, ← Matrix.mul_assoc]

theorem hsic_comm (K L H : Matrix (Fin n) (Fin n) R) : hsic K L H = hsic L K H := by
  have hcycle : trace (K * H * L * H) = trace (L * H * K * H) := by
    rw [Matrix.mul_assoc (K * H), trace_mul_comm, ← Matrix.mul_assoc]
  rw [hsic_eq_trace, hsic_eq_trace, hcycle]

theorem hsicGpu_eq (hc : 0 < chunk) (K L : Matrix (Fin n) (Fin n) R) :
    hsicGpu chunk K L = hsic K L (centeringMatrix n R) := by
  rw [hsicGpu, traceAB_eq_trace hc, center_eq_mul, center_eq_mul]
  rfl

/-- The statistic of the GPU path, that of the CPU path and the documented trace are one. -/
theorem hsicGpu_eq_hsic (hc : 0 < chunk) (K L : Matrix (Fin n) (Fin n) R) :
    hsicGpu chunk K L = hsic K L (centeringMatrix n R) ∧
      hsic K L (centeringMatrix n R) =
        trace (K * centeringMatrix n R * L * centeringMatrix n R) / ((n : R) - 1) ^ 2 ∧
      hsicGpu chunk K L = hsicGpu chunk L K := by
  refine ⟨hsicGpu_eq hc K L, hsic_eq_trace K L _, ?_⟩
  rw [hsicGpu_eq hc, hsicGpu_eq hc, hsic_comm]

theorem hsicGpu_eq_hsic_three :
    let K : Matrix (Fin 3) (Fin 3) ℚ := fun i j => if i = j then 2 else 1
    let L : Matrix (Fin 3) (Fin 3) ℚ := fun i j => i * j
    hsicGpu 2 K L = hsic K L (centeringMatrix 3 ℚ) ∧
      hsic K L (centeringMatrix 3 ℚ) =
        trace (K * centeringMatrix 3 ℚ * L * centeringMatrix 3 ℚ) / (((3 : Nat) : ℚ) - 1) ^ 2 ∧
      hsicGpu 2 K L = hsicGpu 2 L K :=
  hsicGpu_eq_hsic Nat.two_pos _ _

end ActQuant.Hsic

namespace ActQuant.Hsic
open ActQuant.Lib ActQuant.Gguf

inductive SuiteKey where
  | spatial | object | goal | long
  deriving DecidableEq

/-- `SUITE_NAME_MAP`. -/
def suiteNameMap : List (SuiteKey × String) :=
  [(.spatial, "libero_spatial_no_noops"), (.object, "libero_object_no_noops"),
   (.goal, "libero_goal_no_noops"), (.long, "libero_10_no_noops")]

structure Episode where
  task : String
  numFrames : Nat

structure Suite where
  dataset : String
  episodes : Option (List Episode)
  numFrames : Nat

/-- The frames kept of one suite; zero episodes wanted is the filter left out. -/
def suiteFrames (requested : SuiteKey → Nat) (suiteFrameOffset : Nat) (suite : Suite) :
    Option (List Nat) := do
  let episodes ← suite.episodes
  let friendly := (suiteNameMap.find? (·.2 = suite.dataset)).map (·.1)
  let want := (friendly.map requested).getD 0
  if want = 0 ∨ episodes.length ≤ want then
    return List.range' suiteFrameOffset suite.numFrames
  let taskToEpIndices : Dict String (List Nat) :=
    episodes.zipIdx.foldl (fun d ep => d.append ep.1.task ep.2) []
  let numTasks := taskToEpIndices.length
  if want % numTasks ≠ 0 then none
  let perTask := want / numTasks
  let tasks := taskToEpIndices.mergeSort fun a b => decide (a.1 ≤ b.1)
  let kept ← tasks.mapM fun task =>
    if task.2.length < perTask then none else some (task.2.take perTask)
  let frameCounts := episodes.map (·.numFrames)
  concatenate (kept.flatten.map fun epIdx =>
    List.range' (suiteFrameOffset + (frameCounts.take epIdx).sum) (frameCounts.getD epIdx 0))

def suitesFrames (requested : SuiteKey → Nat) : Nat → List Suite → Option (List (List Nat))
  | _, [] => some []
  | offset, suite :: suites => do
    let frames ← suiteFrames requested offset suite
    let rest ← suitesFrames requested (offset + suite.numFrames) suites
    return frames :: rest

/-- `stratified_frame_indices`. -/
def stratifiedFrameIndices (suites : List Suite) (requested : SuiteKey → Nat) :
    Option (List Nat) :=
  (suitesFrames requested 0 suites).bind concatenate

/-- A frame of the calibration: its file and its place there; a directory is one file. -/
abbrev Frame := Nat × Nat

/-- The frames of consecutive files, given how many each holds. -/
def framesFrom (i : Nat) : List Nat → List Frame
  | [] => []
  | n :: ns => (List.range n).map (fun j => (i, j)) ++ framesFrom (i + 1) ns

/-- The `.bin` files, by the numbers of their embeddings and of the rows of their targets. -/
structure LegacyArgs where
  calibData : List Nat
  calibGt : Option (List Nat)
  calibTargets : Option (List Nat)
  nFrames : Nat

structure CalibDirArgs where
  suites : List Suite
  numFrames : Nat
  oftGtRows : Nat
  episodes : SuiteKey → Nat
  nFrames : Nat

inductive Calib where
  | legacy (args : LegacyArgs)
  | calibDir (args : CalibDirArgs)

inductive YMode where
  | actions | targets | lastHidden
  deriving DecidableEq

structure Batching where
  batchLayers : Nat
  numGpus : Nat
  workersPerGpu : Nat
  batchLayers_pos : 0 < batchLayers
  workersPerGpu_pos : 0 < workersPerGpu

/-- What the model and the files say of each frame. -/
structure Content (ι K : Type) where
  pooled : Pooled Frame (ι → K)
  gtActions : Frame → ι → K
  tokenIds : Frame → ι → K

/-- The activation cache, with the indices a calibration directory was read at. -/
structure Cache (ι K : Type) where
  acts : TensorActivations (ι → K)
  vlaIndices : Option (List Nat)

/-- What the scores are computed from; `yRaw` are the rows chosen for Y. -/
structure Samples (ι K : Type) where
  xActs : List (ι → K)
  tensorInputs : Dict (List Char) (List (ι → K))
  tensorOutputs : Dict (List Char) (List (ι → K))
  yRaw : List (ι → K)
  yActs : List (ι → K)

/-- The files the frames are counted in: those of the actions, or else those of the token ids. -/
def LegacyArgs.actionCounts (args : LegacyArgs) : Option (List Nat) :=
  args.calibGt <|> args.calibTargets

def LegacyArgs.useFrames (args : LegacyArgs) : Nat :=
  min args.nFrames (min args.calibData.sum (args.actionCounts.getD []).sum)

/-- `vla_indices`: the sorted frames of the kept episodes, or all, up to the limit. -/
def CalibDirArgs.vlaIndices (args : CalibDirArgs) : Option (List Nat) := do
  let all ← if ∀ k ∈ suiteNameMap, args.episodes k.1 = 0 then some (List.range args.numFrames)
    else (stratifiedFrameIndices args.suites args.episodes).map (List.insertionSort (· ≤ ·))
  if 0 < args.nFrames ∧ args.nFrames < all.length then return all.take args.nFrames
  else return all

variable {ι K : Type}

def collectBinFiles (M : Pooled Frame (ι → K)) (nLayers : Nat) (b : Batching)
    (args : LegacyArgs) : Option (TensorActivations (ι → K)) :=
  let embeddings := (framesFrom 0 args.calibData).take args.useFrames
  if 1 < b.numGpus then
    collectActivationsMultiGpu M nLayers b.batchLayers b.numGpus embeddings
  else collectTensorActivations M nLayers b.batchLayers args.useFrames embeddings

def collectCalibDir (M : Pooled Frame (ι → K)) (nLayers : Nat) (b : Batching) (numFrames : Nat)
    (vlaIndices : List Nat) : Option (TensorActivations (ι → K)) :=
  let arrs := framesFrom 0 [numFrames]
  if 1 < b.numGpus then
    collectActivationsMultiGpuVlaInput M nLayers b.batchLayers b.numGpus b.workersPerGpu arrs
      vlaIndices
  else collectTensorActivationsVlaInput M nLayers b.batchLayers arrs vlaIndices

/-- The collection of `main` where there is no cache to load. -/
def collectFresh (M : Pooled Frame (ι → K)) (nLayers : Nat) (b : Batching) :
    Calib → Option (Cache ι K)
  | .legacy args => do
    let acts ← collectBinFiles M nLayers b args
    return ⟨acts, none⟩
  | .calibDir args => do
    let vlaIndices ← args.vlaIndices
    let acts ← collectCalibDir M nLayers b args.numFrames vlaIndices
    return ⟨acts, some vlaIndices⟩

section Scores
variable [Field K] [LinearOrder K] (r : SquareRoot K)

/-- `load_gt_actions`, and `targets_to_actions` of the truncated token ids. -/
def loadActions (rows : Frame → ι → K) (counts : List Nat) (useFrames : Nat) :
    Option (List (ι → K) × List (ι → K)) := do
  if counts = [] then none
  let raw := ((framesFrom 0 counts).take useFrames).map rows
  return (raw, standardize r raw)

/-- The rows of a calibration directory's array at the stored indices. -/
def gatherActions (rows : Frame → ι → K) (count : Nat) (vlaIndices : List Nat) :
    Option (List (ι → K) × List (ι → K)) := do
  let frames ← vlaIndices.mapM ((framesFrom 0 [count])[·]?)
  let raw := frames.map rows
  return (raw, standardize r raw)

def buildY (C : Content ι K) (yMode : YMode) (cache : Cache ι K) :
    Calib → Option (List (ι → K) × List (ι → K))
  | .calibDir args => do
    let vlaIndices ← cache.vlaIndices
    match yMode with
    | .targets => gatherActions r C.tokenIds args.numFrames vlaIndices
    | .lastHidden => cache.acts.yHidden.map fun y => (y, y)
    | .actions => gatherActions r C.gtActions args.oftGtRows vlaIndices
  | .legacy args =>
    match args.calibGt with
    | some calibGt => loadActions r C.gtActions calibGt cache.acts.xActs.length
    | none => do
      let calibTargets ← args.calibTargets
      let tokens ← loadActions r C.tokenIds calibTargets cache.acts.xActs.length
      match yMode with
      | .actions => return tokens
      | .targets | .lastHidden => cache.acts.yHidden.map fun y => (y, y)

/-- One run up to the scores, and the activation cache it leaves. -/
def mainSamples (C : Content ι K) (calib : Calib) (nLayers : Nat) (yMode : YMode) (b : Batching)
    (cache : Option (Cache ι K)) : Option (Samples ι K × Cache ι K) := do
  let loaded ← cache <|> collectFresh C.pooled nLayers b calib
  let y ← buildY r C yMode loaded calib
  return (⟨loaded.acts.xActs, loaded.acts.tensorInputs, loaded.acts.tensorOutputs, y.1, y.2⟩,
    loaded)

/-- The cache file after earlier runs over the same calibration inputs; a failed run writes none. -/
def cacheAfter (C : Content ι K) (calib : Calib) (nLayers : Nat)
    (earlier : List (YMode × Batching)) : Option (Cache ι K) :=
  earlier.foldl (fun cache run =>
    ((mainSamples r C calib nLayers run.1 run.2 cache).map (·.2)) <|> cache) none

/-- The samples of a run after earlier ones. -/
def samples (C : Content ι K) (calib : Calib) (nLayers : Nat) (yMode : YMode) (b : Batching)
    (earlier : List (YMode × Batching)) : Option (Samples ι K) :=
  (mainSamples r C calib nLayers yMode b (cacheAfter r C calib nLayers earlier)).map (·.1)

end Scores

/-- The frames a run collects, whatever the batching; none where it cannot read them. -/
def Calib.frames : Calib → Option (List Frame)
  | .legacy args => stack ((framesFrom 0 args.calibData).take args.useFrames)
  | .calibDir args => do
    let vlaIndices ← args.vlaIndices
    let frames ← vlaIndices.mapM ((framesFrom 0 [args.numFrames])[·]?)
    stack frames

def Calib.storedIndices : Calib → Option (List Nat)
  | .legacy _ => none
  | .calibDir args => args.vlaIndices

def Cache.ofFrames (C : Content ι K) (calib : Calib) (nLayers : Nat) (frames : List Frame) :
    Cache ι K := ⟨.ofFrames C.pooled nLayers frames, calib.storedIndices⟩

section Runs
variable {M : Pooled Frame (ι → K)} {nLayers : Nat}

theorem collectFresh_zero (b : Batching) (calib : Calib) : collectFresh M 0 b calib = none := by
  cases calib with
  | legacy args =>
    simp only [collectFresh, collectBinFiles, collectActivationsMultiGpu_zero,
      collectTensorActivations, collectLayers_zero, ite_self, Option.bind_eq_bind,
      Option.bind_none]
  | calibDir args =>
    simp only [collectFresh, collectCalibDir, collectActivationsMultiGpuVlaInput_zero,
      collectTensorActivationsVlaInput_zero, ite_self, Option.bind_eq_bind, Option.bind_none,
      Option.bind_fun_none]

theorem collectBinFiles_of_pos (hL : 0 < nLayers) (b : Batching) (args : LegacyArgs) :
    collectBinFiles M nLayers b args =
      (Calib.legacy args).frames.map (.ofFrames M nLayers) := by
  simp only [collectBinFiles, Calib.frames]
  by_cases hg : 1 < b.numGpus
  · rw [if_pos hg, collectActivationsMultiGpu_of_pos b.batchLayers_pos (by omega) hL]
  · rw [if_neg hg, collectTensorActivations, collectLayers_of_pos b.batchLayers_pos hL,
      List.take_take, Nat.min_self]

theorem collectCalibDir_of_pos (hL : 0 < nLayers) (b : Batching) (n : Nat)
    (vlaIndices : List Nat) : collectCalibDir M nLayers b n vlaIndices =
      (vlaIndices.mapM ((framesFrom 0 [n])[·]?)).bind fun frames =>
        (stack frames).map (.ofFrames M nLayers) := by
  rw [collectCalibDir]
  by_cases hg : 1 < b.numGpus
  · rw [if_pos hg, collectActivationsMultiGpuVlaInput_of_pos b.batchLayers_pos (by omega)
      b.workersPerGpu_pos hL]
  · rw [if_neg hg, collectTensorActivationsVlaInput]
    simp only [collectLayers_of_pos b.batchLayers_pos hL, Option.bind_eq_bind]

/-- Every batching and sharding collects the rows of the same frames. -/
theorem collectFresh_of_pos (hL : 0 < nLayers) (b : Batching) (calib : Calib) :
    collectFresh M nLayers b calib = calib.frames.map fun frames =>
      ⟨.ofFrames M nLayers frames, calib.storedIndices⟩ := by
  cases calib with
  | legacy args =>
    rw [collectFresh, collectBinFiles_of_pos hL, Calib.storedIndices]
    cases (Calib.legacy args).frames with
    | none => rfl
    | some frames => rfl
  | calibDir args =>
    simp only [collectFresh, Calib.frames, Calib.storedIndices, collectCalibDir_of_pos hL]
    cases args.vlaIndices with
    | none => rfl
    | some vlaIndices =>
      simp only [Option.bind_eq_bind, Option.bind_some]
      cases vlaIndices.mapM ((framesFrom 0 [args.numFrames])[·]?) with
      | none => rfl
      | some frames =>
        rw [Option.bind_some, Option.bind_some]
        cases stack frames with
        | none => rfl
        | some frames => rfl

/-- What every run loads or collects. -/
def Cache.expected (C : Content ι K) (calib : Calib) (nLayers : Nat) : Option (Cache ι K) :=
  if nLayers = 0 then none else calib.frames.map (Cache.ofFrames C calib nLayers)

theorem collectFresh_eq (C : Content ι K) (b : Batching) (calib : Calib) :
    collectFresh C.pooled nLayers b calib = Cache.expected C calib nLayers := by
  rcases Nat.eq_zero_or_pos nLayers with rfl | hL
  · rw [collectFresh_zero, Cache.expected, if_pos rfl]
  · rw [collectFresh_of_pos hL, Cache.expected, if_neg hL.ne']
    rfl

end Runs

section Targets

/-- The matrix a frame's row of Y is read from. -/
def Calib.target (C : Content ι K) (yMode : YMode) : Calib → Frame → ι → K
  | .calibDir _ =>
    match yMode with
    | .targets => C.tokenIds
    | .lastHidden => C.pooled.y
    | .actions => C.gtActions
  | .legacy args =>
    match args.calibGt, yMode with
    | some _, _ => C.gtActions
    | none, .actions => C.tokenIds
    | none, _ => C.pooled.y

/-- The last hidden state is not standardized. -/
def Calib.standardizes (yMode : YMode) : Calib → Bool
  | .calibDir _ => yMode ≠ .lastHidden
  | .legacy args => args.calibGt.isSome ∨ yMode = .actions

/-- The frames the rows of Y come from, where the activations come from the given ones. -/
def Calib.targetFrames (yMode : YMode) (frames : List Frame) : Calib → Option (List Frame)
  | .calibDir args => do
    let vlaIndices ← args.vlaIndices
    match yMode with
    | .targets => vlaIndices.mapM ((framesFrom 0 [args.numFrames])[·]?)
    | .lastHidden => some frames
    | .actions => vlaIndices.mapM ((framesFrom 0 [args.oftGtRows])[·]?)
  | .legacy args =>
    let taken (counts : List Nat) : Option (List Frame) :=
      if counts = [] then none else some ((framesFrom 0 counts).take frames.length)
    match args.calibGt with
    | some calibGt => taken calibGt
    | none => do
      let calibTargets ← args.calibTargets
      let tokens ← taken calibTargets
      match yMode with
      | .actions => some tokens
      | .targets | .lastHidden => some frames

variable [Field K] [LinearOrder K]

/-- The samples whose activations come from some frames and whose targets from others. -/
def Samples.ofFrames (r : SquareRoot K) (C : Content ι K) (calib : Calib) (yMode : YMode)
    (nLayers : Nat) (frames yFrames : List Frame) : Samples ι K :=
  let acts := TensorActivations.ofFrames C.pooled nLayers frames
  let yRaw := yFrames.map (calib.target C yMode)
  { xActs := acts.xActs
    tensorInputs := acts.tensorInputs
    tensorOutputs := acts.tensorOutputs
    yRaw
    yActs := if calib.standardizes yMode then standardize r yRaw else yRaw }

variable {r : SquareRoot K} {C : Content ι K} {calib : Calib} {nLayers : Nat} {yMode : YMode}

theorem buildY_ofFrames (frames : List Frame) :
    buildY r C yMode (Cache.ofFrames C calib nLayers frames) calib =
      (calib.targetFrames yMode frames).map fun yFrames =>
        (yFrames.map (calib.target C yMode),
          (Samples.ofFrames r C calib yMode nLayers frames yFrames).yActs) := by
  cases calib with
  | calibDir args =>
    simp only [buildY, Cache.ofFrames, Calib.storedIndices, Calib.targetFrames]
    cases args.vlaIndices with
    | none => rfl
    | some vlaIndices =>
      simp only [Option.bind_eq_bind, Option.bind_some]
      cases yMode with
      | lastHidden => rfl
      | targets =>
        simp only [gatherActions]
        cases vlaIndices.mapM ((framesFrom 0 [args.numFrames])[·]?) with
        | none => rfl
        | some yFrames => rfl
      | actions =>
        simp only [gatherActions]
        cases vlaIndices.mapM ((framesFrom 0 [args.oftGtRows])[·]?) with
        | none => rfl
        | some yFrames => rfl
  | legacy args =>
    obtain ⟨calibData, calibGt, calibTargets, nFrames⟩ := args
    have hlen : (TensorActivations.ofFrames C.pooled nLayers frames).xActs.length =
        frames.length := List.length_map _
    cases calibGt with
    | some calibGt =>
      simp only [buildY, Cache.ofFrames, loadActions, hlen, Calib.targetFrames]
      by_cases hnil : calibGt = []
      · simp only [if_pos hnil]
        rfl
      · simp only [if_neg hnil]
        rfl
    | none =>
      cases calibTargets with
      | none => rfl
      | some calibTargets =>
        simp only [buildY, Cache.ofFrames, loadActions, hlen, Calib.targetFrames,
          Option.bind_eq_bind, Option.bind_some]
        by_cases hnil : calibTargets = []
        · simp only [if_pos hnil]
          rfl
        · simp only [if_neg hnil]
          cases yMode <;> rfl

/-- A cache written over the same calibration inputs holds what a fresh run collects. -/
theorem cacheAfter_expected (earlier : List (YMode × Batching))
    (h : cacheAfter r C calib nLayers earlier = some cache) :
    Cache.expected C calib nLayers = some cache := by
  have hrun (c : Option (Cache ι K))
      (hc : ∀ cache, c = some cache → Cache.expected C calib nLayers = some cache) :
      ∀ cache, earlier.foldl (fun cache run =>
        ((mainSamples r C calib nLayers run.1 run.2 cache).map (·.2)) <|> cache) c = some cache →
        Cache.expected C calib nLayers = some cache := by
    clear h
    induction earlier generalizing c with
    | nil => exact hc
    | cons run earlier ih =>
      apply ih
      intro cache hcache
      cases hmain : mainSamples r C calib nLayers run.1 run.2 c with
      | none =>
        simp only [hmain] at hcache
        exact hc cache hcache
      | some result =>
        simp only [hmain] at hcache
        cases hcache
        obtain ⟨loaded, hloaded, hmain⟩ := Option.bind_eq_some_iff.1 hmain
        obtain ⟨y, _, hy⟩ := Option.bind_eq_some_iff.1 hmain
        cases hy
        cases c with
        | none => rw [← collectFresh_eq C run.2]; exact hloaded
        | some c => rw [hc c rfl]; exact hloaded
  exact hrun none (fun _ hnone => by cases hnone) cache h

/-- Batching, sharding and caching never change the samples. -/
theorem samples_eq (b : Batching) (earlier : List (YMode × Batching)) :
    samples r C calib nLayers yMode b earlier =
      if nLayers = 0 then none
      else calib.frames.bind fun frames => (calib.targetFrames yMode frames).map fun yFrames =>
        Samples.ofFrames r C calib yMode nLayers frames yFrames := by
  have hloaded : (cacheAfter r C calib nLayers earlier <|> collectFresh C.pooled nLayers b calib) =
      Cache.expected C calib nLayers := by
    rw [collectFresh_eq]
    cases hcache : cacheAfter r C calib nLayers earlier with
    | none => rfl
    | some cache => exact (cacheAfter_expected earlier hcache).symm
  rw [samples, mainSamples, hloaded, Cache.expected]
  by_cases hL : nLayers = 0
  · rw [if_pos hL, if_pos hL]
    rfl
  · rw [if_neg hL, if_neg hL]
    cases calib.frames with
    | none => rfl
    | some frames =>
      simp only [Option.map_some, Option.bind_eq_bind, Option.bind_some, buildY_ofFrames]
      cases calib.targetFrames yMode frames with
      | none => rfl
      | some yFrames => rfl

end Targets

end ActQuant.Hsic
