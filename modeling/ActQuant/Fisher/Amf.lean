import ActQuant.Fisher.Accumulate
import ActQuant.Lib.Lists
import ActQuant.Lib.Layout

namespace ActQuant.Fisher
open ActQuant.Lib

variable {E T K W : Type}

/-- The decoded target of one frame: its steps of seven action dimensions. -/
abbrev ActionChunk (K : Type) := List (Fin 7 → K)

/-- A calibration `.bin` file and its targets array, which may be of another length. -/
structure CalibFile (E T : Type) where
  embeddings : List E
  tokenIds : List T

def CalibFile.shape (f : CalibFile E T) : Nat × Nat := (f.embeddings.length, f.tokenIds.length)

/-- Which frames are used: all, or a sorted sample drawn without replacement. -/
structure Selection where
  numSamples : Nat
  choice : Nat → List Nat
  choice_sorted : ∀ total, (choice total).Pairwise (· < ·)
  choice_lt : ∀ total, numSamples < total → ∀ i ∈ choice total, i < total
  choice_length : ∀ total, numSamples < total → (choice total).length = numSamples

def Selection.indices (sel : Selection) (total : Nat) : List Nat :=
  if 0 < sel.numSamples ∧ sel.numSamples < total then sel.choice total else List.range total

/-- `decode_action_targets`, row by row; `np.stack` refuses an empty list of rows. -/
def decodeActionTargets (decode : T → ActionChunk K) (tokenIds : List T) :
    Option (List (ActionChunk K)) :=
  if tokenIds = [] then none else some (tokenIds.map decode)

/-- `_load_one`: the longer of the two arrays loses its surplus. -/
def loadOne (decode : T → ActionChunk K) (f : CalibFile E T) :
    Option (List E × List (ActionChunk K)) := do
  let targets ← decodeActionTargets decode f.tokenIds
  if f.embeddings.length ≠ targets.length then
    let n := min f.embeddings.length targets.length
    return (f.embeddings.take n, targets.take n)
  else return (f.embeddings, targets)

def loadAllCalibrationData (decode : T → ActionChunk K) (files : List (CalibFile E T)) :
    Option (List E × List (ActionChunk K)) := do
  let results ← files.mapM (loadOne decode)
  if results = [] then none
  else return ((results.map (·.1)).flatten, (results.map (·.2)).flatten)

/-- `load_embeddings_for_indices`: a global index is a file and a frame in it. -/
def loadEmbeddingsForIndices (bins : List (List E)) (globalIndices frameCounts : List Nat) :
    Option (List E) :=
  let cum := offsets 0 frameCounts
  globalIndices.mapM fun gi => do
    let fi := searchsortedRight cum.tail gi
    let embeddings ← bins[fi]?
    embeddings[gi - cum.getD fi 0]?

/-- The pairs the single-GPU path processes, and the targets its weights come from. -/
def singleGpuPairs (decode : T → ActionChunk K) (sel : Selection) (files : List (CalibFile E T)) :
    Option (List (E × ActionChunk K) × List (ActionChunk K)) := do
  let (embeddings, actionTargets) ← loadAllCalibrationData decode files
  let indices := sel.indices embeddings.length
  let embs ← indices.mapM (embeddings[·]?)
  let tgts ← indices.mapM (actionTargets[·]?)
  return (embs.zip tgts, actionTargets)

def workerPairs (bins : List (List E)) (frameCounts : List Nat)
    (allTargets : List (ActionChunk K)) (globalIndices : List Nat) :
    Option (List (E × ActionChunk K)) := do
  let embs ← loadEmbeddingsForIndices bins globalIndices frameCounts
  let tgts ← globalIndices.mapM (allTargets[·]?)
  return embs.zip tgts

/-- The pairs of each worker, and the targets the weights come from. -/
def multiGpuPairs (decode : T → ActionChunk K) (sel : Selection) (numGpus : Nat)
    (files : List (CalibFile E T)) :
    Option (List (List (E × ActionChunk K)) × List (ActionChunk K)) := do
  let frameCounts := files.map (·.embeddings.length)
  let totalFrames := frameCounts.sum
  let actionTargets ← decodeActionTargets decode (files.map (·.tokenIds)).flatten
  let chunks := arraySplit numGpus (sel.indices totalFrames)
  let workers ← chunks.mapM (workerPairs (files.map (·.embeddings)) frameCounts actionTargets)
  return (workers, actionTargets)

section Diagonal
variable [Field K] [LinearOrder K]

/-- `compute_sigma_task`: one weight for each action dimension. -/
def computeSigmaTask (r : SquareRoot K) (actionTargets : List (ActionChunk K)) (k : Fin 7) : K :=
  let sigma := std r (actionTargets.flatten.map (· k)) + stdEps
  1 / sigma ^ 2

/-- The gradient of a batch's loss; `h k` is that of one frame's squared error in dimension `k`. -/
def amfGrad (h : Fin 7 → E → ActionChunk K → W → K) (sigmaInvSq : Fin 7 → K)
    (batch : List (E × ActionChunk K)) (w : W) : K :=
  (batch.map fun p => ∑ k, sigmaInvSq k * h k p.1 p.2 w).sum

def runAmf (h : Fin 7 → E → ActionChunk K → W → K) (sigmaInvSq : Fin 7 → K) (batchSize : Nat)
    (pairs : List (E × ActionChunk K)) : (W → K) × Nat :=
  ((batches batchSize pairs).foldl (accumulate (amfGrad h sigmaInvSq)) fun _ => 0, pairs.length)

/-- The pairs processed and the diagonal; `none` also where it would be `0 / 0`. -/
def computeAmfSingleGpu (r : SquareRoot K) (decode : T → ActionChunk K)
    (h : Fin 7 → E → ActionChunk K → W → K) (batchSize : Nat) (sel : Selection)
    (files : List (CalibFile E T)) : Option (List (E × ActionChunk K) × (W → K)) := do
  let (pairs, actionTargets) ← singleGpuPairs decode sel files
  let result := runAmf h (computeSigmaTask r actionTargets) batchSize pairs
  if result.2 = 0 then none else return (pairs, fun w => result.1 w / result.2)

def computeAmfMultiGpu (r : SquareRoot K) (decode : T → ActionChunk K)
    (h : Fin 7 → E → ActionChunk K → W → K) (batchSize : Nat) (sel : Selection) (numGpus : Nat)
    (files : List (CalibFile E T)) : Option (List (E × ActionChunk K) × (W → K)) := do
  let (workers, actionTargets) ← multiGpuPairs decode sel numGpus files
  let results := workers.map (runAmf h (computeSigmaTask r actionTargets) batchSize)
  if (results.map (·.2)).sum = 0 then none else return (workers.flatten, merge results)

end Diagonal

section Aligned
variable {decode : T → ActionChunk K} {sel : Selection} {files : List (CalibFile E T)}

theorem Selection.lt_of_mem_indices (sel : Selection) (h : i ∈ sel.indices total) : i < total := by
  rw [indices] at h
  split_ifs at h with hsel
  · exact sel.choice_lt total hsel.2 i h
  · exact List.mem_range.1 h

theorem Selection.indices_ne_nil (sel : Selection) (h : 0 < total) : sel.indices total ≠ [] := by
  apply List.ne_nil_of_length_pos
  rw [indices]
  split_ifs with hsel
  · rw [sel.choice_length total hsel.2]
    exact hsel.1
  · rwa [List.length_range]

/-- Every file has a frame, and a target for each of its frames. -/
def Aligned (files : List (CalibFile E T)) : Prop :=
  ∀ f ∈ files, f.tokenIds.length = f.embeddings.length ∧ 0 < f.embeddings.length

def allEmbeddings (files : List (CalibFile E T)) : List E := (files.map (·.embeddings)).flatten

def allTargets (decode : T → ActionChunk K) (files : List (CalibFile E T)) :
    List (ActionChunk K) := (files.map (·.tokenIds)).flatten.map decode

theorem allTargets_length (decode : T → ActionChunk K) (h : Aligned files) :
    (allTargets decode files).length = (allEmbeddings files).length := by
  rw [allTargets, allEmbeddings, List.length_map, List.length_flatten, List.length_flatten,
    List.map_map, List.map_map]
  congr 1
  apply List.map_congr_left
  intro f hf
  exact (h f hf).1

theorem allEmbeddings_length :
    (allEmbeddings files).length = (files.map (·.embeddings.length)).sum := by
  rw [allEmbeddings, List.length_flatten, List.map_map]
  rfl

theorem loadOne_of_nil {f : CalibFile E T} (h : f.tokenIds = []) : loadOne decode f = none := by
  simp [loadOne, decodeActionTargets, h]

theorem loadOne_of_ne_nil {f : CalibFile E T} (h : f.tokenIds ≠ []) :
    loadOne decode f = some (f.embeddings.take f.tokenIds.length,
      (f.tokenIds.take f.embeddings.length).map decode) := by
  simp only [loadOne, decodeActionTargets, if_neg h, Option.bind_eq_bind, Option.bind_some,
    List.length_map, Option.pure_def, List.map_take]
  split_ifs with hlen
  · rcases Nat.le_total f.embeddings.length f.tokenIds.length with hle | hle
    · rw [Nat.min_eq_left hle, List.take_length, List.take_of_length_le hle]
    · rw [Nat.min_eq_right hle,
        List.take_of_length_le (l := f.tokenIds.map decode) (i := f.tokenIds.length) (by simp),
        List.take_of_length_le (l := f.tokenIds.map decode) (by simpa using hle)]
  · rw [not_not] at hlen
    rw [List.take_of_length_le hlen.le, List.take_of_length_le (by simpa using hlen.ge)]

theorem loadOne_of_aligned {f : CalibFile E T}
    (h : f.tokenIds.length = f.embeddings.length ∧ 0 < f.embeddings.length) :
    loadOne decode f = some (f.embeddings, f.tokenIds.map decode) := by
  have hne : f.tokenIds ≠ [] := List.ne_nil_of_length_pos (h.1 ▸ h.2)
  rw [loadOne_of_ne_nil hne, List.take_of_length_le h.1.ge, List.take_of_length_le h.1.le]

theorem loadAll_of_aligned (h : Aligned files) (hne : files ≠ []) :
    loadAllCalibrationData decode files = some (allEmbeddings files, allTargets decode files) := by
  have hresults := mapM_eq_some_map (f := loadOne decode) fun f hf => loadOne_of_aligned (h f hf)
  simp only [loadAllCalibrationData, hresults, Option.bind_eq_bind, Option.bind_some,
    List.map_eq_nil_iff, hne, if_false, Option.pure_def, List.map_map, allEmbeddings, allTargets,
    List.map_flatten, Function.comp_def]

/-- The pair at a global index, with stand-ins where there is none. -/
def pairAt (decode : T → ActionChunk K) (files : List (CalibFile E T)) (p : E × ActionChunk K)
    (i : Nat) : E × ActionChunk K :=
  ((allEmbeddings files).getD i p.1, (allTargets decode files).getD i p.2)

theorem singleGpuPairs_of_aligned (h : Aligned files) (hne : files ≠ [])
    (p : E × ActionChunk K) :
    singleGpuPairs decode sel files = some
      ((sel.indices (allEmbeddings files).length).map (pairAt decode files p),
        allTargets decode files) := by
  have hlt : ∀ i ∈ sel.indices (allEmbeddings files).length, i < (allEmbeddings files).length :=
    fun i hi => sel.lt_of_mem_indices hi
  have hembs := mapM_getElem? p.1 hlt
  have htgts := mapM_getElem? p.2 fun i hi => (allTargets_length decode h).symm ▸ hlt i hi
  simp only [singleGpuPairs, loadAll_of_aligned h hne, hembs, htgts, Option.bind_eq_bind,
    Option.bind_some, Option.pure_def, List.zip_map']
  rfl

theorem loadEmbeddingsForIndices_eq (e : E) (hlt : ∀ i ∈ is, i < (allEmbeddings files).length) :
    loadEmbeddingsForIndices (files.map (·.embeddings)) is (files.map (·.embeddings.length)) =
      some (is.map fun i => (allEmbeddings files).getD i e) := by
  apply mapM_eq_some_map
  intro i hi
  have hlocate := locate_flatten (files.map (·.embeddings)) (Nat.zero_le i)
    (by rw [Nat.zero_add]; exact hlt i hi)
  simp only [List.map_map, Nat.sub_zero] at hlocate
  rw [← getElem?_eq_some_getD e (hlt i hi)]
  exact hlocate

theorem workerPairs_of_aligned (h : Aligned files) (p : E × ActionChunk K)
    (hlt : ∀ i ∈ is, i < (allEmbeddings files).length) :
    workerPairs (files.map (·.embeddings)) (files.map (·.embeddings.length))
      (allTargets decode files) is = some (is.map (pairAt decode files p)) := by
  have htgts := mapM_getElem? p.2 fun i hi => (allTargets_length decode h).symm ▸ hlt i hi
  simp only [workerPairs, loadEmbeddingsForIndices_eq p.1 hlt, htgts, Option.bind_eq_bind,
    Option.bind_some, Option.pure_def, List.zip_map']
  rfl

theorem multiGpuPairs_of_aligned (h : Aligned files) (hne : files ≠ []) (hn : 0 < n)
    (p : E × ActionChunk K) :
    multiGpuPairs decode sel n files = some
      ((arraySplit n (sel.indices (allEmbeddings files).length)).map
        (List.map (pairAt decode files p)), allTargets decode files) := by
  obtain ⟨f, hf⟩ := List.exists_mem_of_ne_nil files hne
  have htokens : (files.map (·.tokenIds)).flatten ≠ [] := by
    intro hnil
    rw [List.flatten_eq_nil_iff] at hnil
    have hlen := h f hf
    rw [hnil _ (List.mem_map_of_mem hf)] at hlen
    exact (hlen.1 ▸ hlen.2).ne' rfl
  have hworkers := mapM_eq_some_map
    (l := arraySplit n (sel.indices (allEmbeddings files).length))
    (f := workerPairs (files.map (·.embeddings)) (files.map (·.embeddings.length))
      (allTargets decode files)) fun chunk hchunk =>
        workerPairs_of_aligned h p fun i hi => sel.lt_of_mem_indices <| by
          have hmem := List.mem_flatten_of_mem hchunk hi
          rwa [flatten_arraySplit hn] at hmem
  simp only [multiGpuPairs, decodeActionTargets, if_neg htokens, Option.bind_eq_bind,
    Option.bind_some, ← allEmbeddings_length, Option.pure_def]
  rw [← allTargets, hworkers]
  rfl

end Aligned

section Runs
variable [Field K] {h : Fin 7 → E → ActionChunk K → W → K}

theorem runAmf_one (sigma : Fin 7 → K) (pairs : List (E × ActionChunk K)) (w : W) :
    (runAmf h sigma 1 pairs).1 w = (pairs.map fun p => amfGrad h sigma [p] w ^ 2).sum := by
  simp only [runAmf, foldl_accumulate, zero_add, batches_one, List.map_map, Function.comp_def]

/-- The merged workers of single frames accumulate what one run over all of them does. -/
theorem merge_runAmf_one (sigma : Fin 7 → K) (workers : List (List (E × ActionChunk K)))
    (w : W) :
    merge (workers.map (runAmf h sigma 1)) w =
      (runAmf h sigma 1 workers.flatten).1 w / (runAmf h sigma 1 workers.flatten).2 := by
  have hcount : (workers.map fun pairs => (runAmf h sigma 1 pairs).2).sum =
      (runAmf h sigma 1 workers.flatten).2 := by
    simp only [runAmf, List.length_flatten]
  have hsum : (workers.map fun pairs => (runAmf h sigma 1 pairs).1 w).sum =
      (runAmf h sigma 1 workers.flatten).1 w := by
    simp only [runAmf_one, List.map_flatten, List.sum_flatten, List.map_map, Function.comp_def]
  rw [merge_eq, List.map_map, List.map_map]
  simp only [Function.comp_def, hsum, hcount]

theorem counts_runAmf (sigma : Fin 7 → K) (workers : List (List (E × ActionChunk K))) :
    ((workers.map (runAmf h sigma b)).map (·.2)).sum = workers.flatten.length := by
  rw [List.length_flatten, List.map_map]
  rfl

/-- A gradient that reads the weight of the first action dimension off. -/
def unitGrad (k : Fin 7) (_ : E) (_ : ActionChunk K) (_ : W) : K := if k = 0 then 1 else 0

theorem runAmf_unitGrad (sigma : Fin 7 → K) (pairs : List (E × ActionChunk K)) (w : W) :
    (runAmf unitGrad sigma 1 pairs).1 w = pairs.length * sigma 0 ^ 2 := by
  rw [runAmf_one]
  simp [amfGrad, unitGrad]

end Runs

section Agreement
variable [Field K] [LinearOrder K] {r : SquareRoot K} {decode : T → ActionChunk K}
  {h : Fin 7 → E → ActionChunk K → W → K} {sel : Selection} {files : List (CalibFile E T)}

/-- Both paths run through on the same pairs, and in batches of one give the same diagonal. -/
def PathsAgree (r : SquareRoot K) (decode : T → ActionChunk K)
    (h : Fin 7 → E → ActionChunk K → W → K) (batchSize : Nat) (sel : Selection) (numGpus : Nat)
    (files : List (CalibFile E T)) : Prop :=
  ∃ single multi, computeAmfSingleGpu r decode h batchSize sel files = some single ∧
    computeAmfMultiGpu r decode h batchSize sel numGpus files = some multi ∧
    single.1.Perm multi.1 ∧ (batchSize = 1 → single.2 = multi.2)

theorem pathsAgree_of_aligned (hfiles : Aligned files) (hne : files ≠ []) (hn : 0 < n) :
    PathsAgree r decode h b sel n files := by
  obtain ⟨f, hf⟩ := List.exists_mem_of_ne_nil files hne
  obtain ⟨hlen, hpos⟩ := hfiles f hf
  obtain ⟨e, he⟩ := List.exists_mem_of_length_pos hpos
  have hall : 0 < (allEmbeddings files).length :=
    List.length_pos_of_mem (List.mem_flatten_of_mem (List.mem_map_of_mem hf) he)
  have hindices := sel.indices_ne_nil hall
  have hpairs : (sel.indices (allEmbeddings files).length).map (pairAt decode files (e, [])) ≠ [] :=
    fun hnil => hindices (List.map_eq_nil_iff.1 hnil)
  have hworkers : ((arraySplit n (sel.indices (allEmbeddings files).length)).map
      (List.map (pairAt decode files (e, [])))).flatten =
      (sel.indices (allEmbeddings files).length).map (pairAt decode files (e, [])) := by
    rw [← List.map_flatten, flatten_arraySplit hn]
  have hcount := List.length_pos_of_ne_nil hpairs
  simp only [PathsAgree, computeAmfSingleGpu, computeAmfMultiGpu,
    singleGpuPairs_of_aligned hfiles hne (e, []), multiGpuPairs_of_aligned hfiles hne hn (e, []),
    Option.bind_eq_bind, Option.bind_some, counts_runAmf, hworkers, runAmf, hcount.ne', if_false]
  refine ⟨_, _, rfl, rfl, .refl _, ?_⟩
  rintro rfl
  funext w
  rw [← hworkers]
  exact (merge_runAmf_one _ _ w).symm

end Agreement

section Misaligned

variable {decode : T → ActionChunk K} {sel : Selection} {files : List (CalibFile E T)}

theorem loadAll_spec (hl : loadAllCalibrationData decode files = some (embs, tgts)) :
    files ≠ [] ∧ (∀ f ∈ files, f.tokenIds ≠ []) ∧
      embs = (files.map fun f => f.embeddings.take f.tokenIds.length).flatten ∧
      tgts = (files.map fun f => (f.tokenIds.take f.embeddings.length).map decode).flatten := by
  obtain ⟨results, hresults, hl⟩ := Option.bind_eq_some_iff.1 hl
  have htokens : ∀ f ∈ files, f.tokenIds ≠ [] := by
    intro f hf hnil
    obtain ⟨y, hy⟩ := isSome_of_mapM hresults hf
    rw [loadOne_of_nil hnil] at hy
    cases hy
  have hmap := mapM_eq_some_map (f := loadOne decode) fun f hf => loadOne_of_ne_nil (htokens f hf)
  rw [hmap, Option.some.injEq] at hresults
  subst hresults
  simp only [List.map_eq_nil_iff, List.map_map, Function.comp_def, Option.pure_def] at hl
  split_ifs at hl with hne
  cases hl
  exact ⟨hne, htokens, rfl, rfl⟩

theorem singleGpuPairs_spec (hs : singleGpuPairs decode sel files = some (pairs, tgts)) :
    files ≠ [] ∧ (∀ f ∈ files, f.tokenIds ≠ []) ∧
      pairs.length = (sel.indices
        (files.map fun f => min f.tokenIds.length f.embeddings.length).sum).length ∧
      tgts = (files.map fun f => (f.tokenIds.take f.embeddings.length).map decode).flatten := by
  obtain ⟨⟨embs, targets⟩, hload, hs⟩ := Option.bind_eq_some_iff.1 hs
  obtain ⟨es, hes, hs⟩ := Option.bind_eq_some_iff.1 hs
  obtain ⟨ts, hts, hs⟩ := Option.bind_eq_some_iff.1 hs
  cases hs
  obtain ⟨hne, htokens, rfl, rfl⟩ := loadAll_spec hload
  refine ⟨hne, htokens, ?_, rfl⟩
  have hcount : (files.map fun f => f.embeddings.take f.tokenIds.length).flatten.length =
      (files.map fun f => min f.tokenIds.length f.embeddings.length).sum := by
    simp only [List.length_flatten, List.map_map, Function.comp_def, List.length_take]
  rw [List.length_zip, length_of_mapM hes, length_of_mapM hts, Nat.min_self, hcount]

theorem workerPairs_length {bins : List (List E)} {allTargets : List (ActionChunk K)}
    (hw : workerPairs bins counts allTargets is = some pairs) : pairs.length = is.length := by
  obtain ⟨es, hes, hw⟩ := Option.bind_eq_some_iff.1 hw
  obtain ⟨ts, hts, hw⟩ := Option.bind_eq_some_iff.1 hw
  cases hw
  rw [List.length_zip, length_of_mapM hts, length_of_mapM (f := fun gi => do
    let embeddings ← bins[searchsortedRight (offsets 0 counts).tail gi]?
    embeddings[gi - (offsets 0 counts).getD
      (searchsortedRight (offsets 0 counts).tail gi) 0]?) hes, Nat.min_self]

theorem multiGpuPairs_spec (hn : 0 < n)
    (hm : multiGpuPairs decode sel n files = some (workers, tgts)) :
    workers.flatten.length =
        (sel.indices (files.map (·.embeddings.length)).sum).length ∧
      tgts = allTargets decode files := by
  obtain ⟨targets, htargets, hm⟩ := Option.bind_eq_some_iff.1 hm
  obtain ⟨ws, hws, hm⟩ := Option.bind_eq_some_iff.1 hm
  cases hm
  constructor
  · rw [length_flatten_of_mapM (fun _ _ => workerPairs_length) hws, flatten_arraySplit hn]
  · rw [decodeActionTargets] at htargets
    split_ifs at htargets
    cases htargets
    rfl

/-- A file of one embedding repeated, its targets `z` up to the frames' number and then `o`. -/
def paddedFile (e : E) (z o : T) (s : Nat × Nat) : CalibFile E T where
  embeddings := .replicate s.1 e
  tokenIds := .replicate (min s.1 s.2) z ++ .replicate (s.2 - s.1) o

@[simp] theorem paddedFile_embeddings_length (e : E) (z o : T) (s : Nat × Nat) :
    (paddedFile e z o s).embeddings.length = s.1 := List.length_replicate

@[simp] theorem paddedFile_tokenIds_length (e : E) (z o : T) (s : Nat × Nat) :
    (paddedFile e z o s).tokenIds.length = s.2 := by
  simp only [paddedFile, List.length_replicate, List.length_append]
  omega

theorem paddedFile_shape (e : E) (z o : T) (s : Nat × Nat) : (paddedFile e z o s).shape = s := by
  rw [CalibFile.shape, paddedFile_embeddings_length, paddedFile_tokenIds_length]

theorem truncated_paddedFile (hle : s.1 ≤ s.2) (e : E) (z o : T) :
    (paddedFile e z o s).tokenIds.take (paddedFile e z o s).embeddings.length =
      .replicate s.1 z := by
  rw [paddedFile_embeddings_length, paddedFile, Nat.min_eq_left hle]
  exact List.take_left' List.length_replicate

theorem mem_column_allTargets {v : K} (hf : f ∈ files) (ht : t ∈ f.tokenIds)
    (hd : decode t = [fun _ => v]) :
    v ∈ (allTargets decode files).flatten.map (· 0) := by
  have htoken : t ∈ (files.map (·.tokenIds)).flatten :=
    List.mem_flatten_of_mem (List.mem_map_of_mem hf) ht
  have hchunk : (fun _ => v) ∈ (allTargets decode files).flatten := by
    refine List.mem_flatten_of_mem (List.mem_map_of_mem htoken) ?_
    rw [hd]
    exact .head _
  exact List.mem_map_of_mem hchunk

end Misaligned

section Converse
variable [Field K] [LinearOrder K] {r : SquareRoot K} {decode : T → ActionChunk K}
  {h : Fin 7 → E → ActionChunk K → W → K} {sel : Selection} {files : List (CalibFile E T)}

theorem computeAmfSingleGpu_spec (hs : computeAmfSingleGpu r decode h b sel files = some single) :
    ∃ tgts, singleGpuPairs decode sel files = some (single.1, tgts) ∧ single.1.length ≠ 0 ∧
      ∀ w, single.2 w = (runAmf h (computeSigmaTask r tgts) b single.1).1 w /
        (single.1.length : K) := by
  obtain ⟨⟨pairs, tgts⟩, hpairs, hs⟩ := Option.bind_eq_some_iff.1 hs
  simp only [Option.pure_def] at hs
  split_ifs at hs with hzero
  cases hs
  exact ⟨tgts, hpairs, hzero, fun _ => rfl⟩

theorem computeAmfMultiGpu_spec (hm : computeAmfMultiGpu r decode h b sel n files = some multi) :
    ∃ workers tgts, multiGpuPairs decode sel n files = some (workers, tgts) ∧
      workers.flatten = multi.1 ∧
      multi.2 = merge (workers.map (runAmf h (computeSigmaTask r tgts) b)) := by
  obtain ⟨⟨workers, tgts⟩, hworkers, hm⟩ := Option.bind_eq_some_iff.1 hm
  simp only [Option.pure_def] at hm
  split_ifs at hm with hzero
  cases hm
  exact ⟨workers, tgts, hworkers, rfl, rfl⟩

def Selection.all : Selection where
  numSamples := 0
  choice _ := []
  choice_sorted _ := .nil
  choice_lt _ _ _ hi := by cases hi
  choice_length _ _ := rfl

theorem Selection.all_indices (total : Nat) : Selection.all.indices total = List.range total :=
  if_neg fun h => h.1.ne' rfl

variable [IsStrictOrderedRing K]

theorem std_eq_of_computeSigmaTask {ts us : List (ActionChunk K)}
    (he : computeSigmaTask r ts k ^ 2 = computeSigmaTask r us k ^ 2) :
    std r (ts.flatten.map (· k)) = std r (us.flatten.map (· k)) := by
  have hts := std_nonneg r (ts.flatten.map (· k))
  have hus := std_nonneg r (us.flatten.map (· k))
  have heps : (0 : K) < stdEps := stdEps_pos
  simp only [computeSigmaTask] at he
  rw [sq_eq_sq₀ (by positivity) (by positivity)] at he
  have hsq := inv_injective (by simpa only [one_div] using he)
  rw [sq_eq_sq₀ (by positivity) (by positivity)] at hsq
  exact add_right_cancel hsq

variable {z o : T} {shape : List (Nat × Nat)} {s t : Nat × Nat}

theorem std_truncated_paddedFile (hle : ∀ s ∈ shape, s.1 ≤ s.2) (e : E)
    (hz : decode z = [fun _ => (0 : K)]) :
    std r (((((shape.map (paddedFile e z o)).map fun f =>
      (f.tokenIds.take f.embeddings.length).map decode).flatten).flatten).map (· 0)) = 0 := by
  apply std_of_const r (y := 0)
  intro x hx
  obtain ⟨step, hstep, rfl⟩ := List.mem_map.1 hx
  obtain ⟨chunk, hchunk, hstep⟩ := List.mem_flatten.1 hstep
  obtain ⟨chunks, hchunks, hchunk⟩ := List.mem_flatten.1 hchunk
  rw [List.map_map] at hchunks
  obtain ⟨s, hs, rfl⟩ := List.mem_map.1 hchunks
  simp only [Function.comp_apply, truncated_paddedFile (hle s hs), List.map_replicate, hz] at hchunk
  rw [List.eq_of_mem_replicate hchunk, List.mem_singleton] at hstep
  rw [hstep]

theorem std_allTargets_paddedFile_pos (e : E) (hz : decode z = [fun _ => (0 : K)])
    (ho : decode o = [fun _ => (1 : K)]) (hs : s ∈ shape) (hframe : 0 < min s.1 s.2)
    (ht : t ∈ shape) (hlonger : t.1 < t.2) :
    0 < std r ((allTargets decode (shape.map (paddedFile e z o))).flatten.map (· 0)) := by
  have hzmem : z ∈ (paddedFile e z o s).tokenIds :=
    List.mem_append_left _ (List.mem_replicate.2 ⟨hframe.ne', rfl⟩)
  have homem : o ∈ (paddedFile e z o t).tokenIds :=
    List.mem_append_right _ (List.mem_replicate.2 ⟨(Nat.sub_pos_of_lt hlonger).ne', rfl⟩)
  exact std_pos r (mem_column_allTargets (List.mem_map_of_mem hs) hzmem hz)
    (mem_column_allTargets (List.mem_map_of_mem ht) homem ho) zero_ne_one

/-- On padded files the two paths agree only where every file has its frames' targets. -/
theorem aligned_of_pathsAgree (decode : T → ActionChunk K) (e : E)
    (hz : decode z = [fun _ => (0 : K)]) (ho : decode o = [fun _ => (1 : K)]) (w : W)
    (hagree : PathsAgree r decode (unitGrad (W := W)) 1 .all 1 (shape.map (paddedFile e z o))) :
    shape ≠ [] ∧ ∀ s ∈ shape, s.2 = s.1 ∧ 0 < s.1 := by
  obtain ⟨single, multi, hsingle, hmulti, hperm, hdiag⟩ := hagree
  obtain ⟨tgts, hpairs, hpos, hsdiag⟩ := computeAmfSingleGpu_spec hsingle
  obtain ⟨workers, all, hworkers, hflat, hmdiag⟩ := computeAmfMultiGpu_spec hmulti
  obtain ⟨hne, htokens, hscount, htgts⟩ := singleGpuPairs_spec hpairs
  obtain ⟨hmcount, rfl⟩ := multiGpuPairs_spec Nat.one_pos hworkers
  simp only [Selection.all_indices, List.length_range, List.map_map, Function.comp_def,
    paddedFile_embeddings_length, paddedFile_tokenIds_length] at hscount hmcount
  have hne' : shape ≠ [] := fun hnil => hne (by rw [hnil, List.map_nil])
  have hcount : (shape.map fun s => min s.2 s.1).sum = (shape.map fun s => s.1).sum := by
    rw [← hscount, hperm.length_eq, ← hflat, hmcount]
  have hle : ∀ s ∈ shape, s.1 ≤ s.2 := by
    intro s hs
    have hmin := (sum_map_eq_iff_of_le fun s _ => Nat.min_le_right s.2 s.1).1 hcount s hs
    omega
  obtain ⟨s₀, hs₀, hframe⟩ : ∃ s ∈ shape, 0 < s.1 := by
    by_contra hno
    push Not at hno
    apply hpos
    rw [hscount, hcount]
    exact List.sum_eq_zero fun n hn => by
      obtain ⟨s, hs, rfl⟩ := List.mem_map.1 hn
      exact Nat.le_zero.1 (hno s hs)
  have hsigma : std r (tgts.flatten.map (· 0)) =
      std r ((allTargets decode (shape.map (paddedFile e z o))).flatten.map (· 0)) := by
    apply std_eq_of_computeSigmaTask
    have hw := congrFun (hdiag rfl) w
    have hlen : (single.1.length : K) ≠ 0 := Nat.cast_ne_zero.2 hpos
    have hlen' : (workers.flatten.length : K) ≠ 0 := by
      rwa [hflat, ← hperm.length_eq]
    rw [hsdiag, hmdiag, merge_runAmf_one, runAmf_unitGrad, runAmf_unitGrad,
      mul_div_cancel_left₀ _ hlen] at hw
    rw [hw, runAmf, mul_div_cancel_left₀ _ hlen']
  refine ⟨hne', fun s hs => ?_⟩
  have hslt := List.length_pos_of_ne_nil (htokens _ (List.mem_map_of_mem hs))
  rw [paddedFile_tokenIds_length] at hslt
  have heq : s.2 = s.1 := by
    by_contra hneq
    have hlonger : s.1 < s.2 := lt_of_le_of_ne (hle s hs) (Ne.symm hneq)
    have hstd := std_allTargets_paddedFile_pos (r := r) e hz ho hs₀
      (lt_min hframe (hframe.trans_le (hle s₀ hs₀))) hs hlonger
    rw [← hsigma, htgts, std_truncated_paddedFile hle e hz] at hstd
    exact lt_irrefl _ hstd
  exact ⟨heq, heq ▸ hslt⟩

end Converse

section Instances

end Instances

end ActQuant.Fisher
