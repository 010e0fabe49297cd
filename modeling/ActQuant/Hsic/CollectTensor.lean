import ActQuant.Gguf.ConvertLlama
import ActQuant.Hsic.Collect
import ActQuant.Lib.Dict

namespace ActQuant.Hsic
open ActQuant.Lib ActQuant.Gguf

variable {E V : Type}

/-- What the hooks see of one frame's forward pass: its pooled activations. -/
structure Pooled (E V : Type) where
  x : E → V
  y : E → V
  tensorIn : Nat × Kind → E → V
  tensorOut : Nat × Kind → E → V

/-- `get_ggml_name`. -/
def ggmlName (t : Nat × Kind) : List Char := blockName t.1 t.2

/-- The lists the hooks of one pass append to. -/
structure Hooks (V : Type) where
  xList : List V
  yList : List V
  batchIn : Dict (List Char) (List V)
  batchOut : Dict (List Char) (List V)

def Hooks.forward (M : Pooled E V) (hookX hookY : Bool) (tensors : List (Nat × Kind))
    (h : Hooks V) (e : E) : Hooks V where
  xList := if hookX then h.xList ++ [M.x e] else h.xList
  yList := if hookY then h.yList ++ [M.y e] else h.yList
  batchIn := tensors.foldl (fun d t => d.append (ggmlName t) (M.tensorIn t e)) h.batchIn
  batchOut := tensors.foldl (fun d t => d.append (ggmlName t) (M.tensorOut t e)) h.batchOut

/-- `np.stack`, which refuses an empty list of rows. -/
def stack (rows : List V) : Option (List V) := if rows = [] then none else some rows

structure Collected (V : Type) where
  xList : List V
  yList : List V
  tensorInputs : Dict (List Char) (List V)
  tensorOutputs : Dict (List Char) (List V)

structure TensorActivations (V : Type) where
  xActs : List V
  yHidden : Option (List V)
  tensorInputs : Dict (List Char) (List V)
  tensorOutputs : Dict (List Char) (List V)

/-- The linear layers of one batch of layers. -/
def batchTensors (batchStart batchEnd : Nat) : List (Nat × Kind) :=
  List.range' batchStart (batchEnd - batchStart) ×ˢ Kind.all

def storeStacked (tensors : Dict (List Char) (List V)) (batch : Dict (List Char) (List V)) :
    Option (Dict (List Char) (List V)) :=
  batch.foldlM (fun d entry => do return d.set entry.1 (← stack entry.2)) tensors

/-- The passes of all frames for one batch of layers. -/
def collectBatch (M : Pooled E V) (nLayers batchLayers : Nat) (frames : List E)
    (c : Collected V) (batchStart : Nat) : Option (Collected V) := do
  let batchEnd := min (batchStart + batchLayers) nLayers
  let tensors := batchTensors batchStart batchEnd
  let empty := Dict.ofKeys ggmlName (fun _ => []) tensors
  let hooks := frames.foldl
    (Hooks.forward M (decide (batchStart = 0)) (decide (nLayers ≤ batchEnd)) tensors)
    ⟨c.xList, c.yList, empty, empty⟩
  let tensorInputs ← storeStacked c.tensorInputs hooks.batchIn
  let tensorOutputs ← storeStacked c.tensorOutputs hooks.batchOut
  return ⟨hooks.xList, hooks.yList, tensorInputs, tensorOutputs⟩

/-- `range(0, n_layers, batch_layers)`. -/
def batchStarts (nLayers batchLayers : Nat) : List Nat :=
  (List.range ((nLayers + batchLayers - 1) / batchLayers)).map (· * batchLayers)

def collectLayers (M : Pooled E V) (nLayers batchLayers : Nat) (frames : List E) :
    Option (TensorActivations V) := do
  let c ← (batchStarts nLayers batchLayers).foldlM (collectBatch M nLayers batchLayers frames)
    ⟨[], [], [], []⟩
  let xActs ← stack c.xList
  return ⟨xActs, stack c.yList, c.tensorInputs, c.tensorOutputs⟩

/-- `collect_tensor_activations`. -/
def collectTensorActivations (M : Pooled E V) (nLayers batchLayers nFrames : Nat)
    (embeddings : List E) : Option (TensorActivations V) :=
  collectLayers M nLayers batchLayers (embeddings.take nFrames)

/-- `collect_tensor_activations_vla_input`: the frames are read from the calibration arrays. -/
def collectTensorActivationsVlaInput (M : Pooled E V) (nLayers batchLayers : Nat)
    (calibArrs : List E) (indices : List Nat) : Option (TensorActivations V) := do
  let frames ← indices.mapM (calibArrs[·]?)
  collectLayers M nLayers batchLayers frames

/-- The workers' activations, concatenated name by name. -/
def mergeActivations (results : List (TensorActivations V)) : Option (TensorActivations V) := do
  let xActs ← concatenate (results.map (·.xActs))
  let tensorInputs := (results.map (·.tensorInputs)).foldl Dict.appendAll []
  let tensorOutputs := (results.map (·.tensorOutputs)).foldl Dict.appendAll []
  return { xActs
           yHidden := concatenate (results.map fun data => data.yHidden.getD [])
           tensorInputs := tensorInputs.map fun e => (e.1, e.2.flatten)
           tensorOutputs := tensorOutputs.map fun e => (e.1, e.2.flatten) }

def collectActivationsMultiGpu (M : Pooled E V) (nLayers batchLayers numGpus : Nat)
    (embeddings : List E) : Option (TensorActivations V) := do
  let results ← (shards numGpus embeddings).mapM fun chunk =>
    collectTensorActivations M nLayers batchLayers chunk.length chunk
  mergeActivations results

def collectActivationsMultiGpuVlaInput (M : Pooled E V) (nLayers batchLayers numGpus : Nat)
    (workersPerGpu : Nat) (calibArrs : List E) (indices : List Nat) :
    Option (TensorActivations V) := do
  let results ← (shards (numGpus * workersPerGpu) indices).mapM
    (collectTensorActivationsVlaInput M nLayers batchLayers calibArrs)
  mergeActivations results

/-- The activations of the given frames, one row for each in every matrix. -/
def TensorActivations.ofFrames (M : Pooled E V) (nLayers : Nat) (frames : List E) :
    TensorActivations V where
  xActs := frames.map M.x
  yHidden := some (frames.map M.y)
  tensorInputs := Dict.ofKeys ggmlName (fun t => frames.map (M.tensorIn t)) (blockTensors nLayers)
  tensorOutputs := Dict.ofKeys ggmlName (fun t => frames.map (M.tensorOut t)) (blockTensors nLayers)

theorem ggmlName_injective : Function.Injective ggmlName := by
  intro t u h
  obtain ⟨hl, hk⟩ := blockName_injective h
  exact Prod.ext hl hk

section Passes
variable {M : Pooled E V} {nLayers batchLayers : Nat} {frames : List E}

theorem stack_of_ne_nil {rows : List V} (h : rows ≠ []) : stack rows = some rows := if_neg h

theorem nodup_names {tensors : List (Nat × Kind)} (h : tensors.Nodup) :
    (tensors.map ggmlName).Nodup := h.map ggmlName_injective

theorem nodup_blockTensors (n : Nat) : (blockTensors n).Nodup :=
  List.nodup_range.product (by decide)

/-- The hooks of a pass after some of its frames. -/
theorem foldl_forward {hookX hookY : Bool} {tensors : List (Nat × Kind)} (h : tensors.Nodup)
    (xs ys : List V) (fin fout : Nat × Kind → List V) (frames : List E) :
    frames.foldl (Hooks.forward M hookX hookY tensors)
        ⟨xs, ys, Dict.ofKeys ggmlName fin tensors, Dict.ofKeys ggmlName fout tensors⟩ =
      { xList := if hookX then xs ++ frames.map M.x else xs
        yList := if hookY then ys ++ frames.map M.y else ys
        batchIn := Dict.ofKeys ggmlName (fun t => fin t ++ frames.map (M.tensorIn t)) tensors
        batchOut :=
          Dict.ofKeys ggmlName (fun t => fout t ++ frames.map (M.tensorOut t)) tensors } := by
  induction frames generalizing xs ys fin fout with
  | nil => simp only [List.foldl_nil, List.map_nil, List.append_nil, ite_self]
  | cons e frames ih =>
    have hnames := nodup_names h
    rw [List.foldl_cons, Hooks.forward, Dict.foldl_append fin _ hnames,
      Dict.foldl_append fout _ hnames, ih]
    cases hookX <;> cases hookY <;>
      simp only [if_true, if_false, Bool.false_eq_true, List.append_assoc, List.singleton_append,
        List.map_cons]

theorem storeStacked_eq {d : Dict (List Char) (List V)} {tensors : List (Nat × Kind)}
    {rows : Nat × Kind → List V} (hrows : ∀ t ∈ tensors, rows t ≠ [])
    (h : (d.map Prod.fst ++ tensors.map ggmlName).Nodup) :
    storeStacked d (Dict.ofKeys ggmlName rows tensors) =
      some (d ++ Dict.ofKeys ggmlName rows tensors) := by
  have hset : storeStacked d (Dict.ofKeys ggmlName rows tensors) =
      some (tensors.foldl (fun d t => d.set (ggmlName t) (rows t)) d) := by
    clear h
    induction tensors generalizing d with
    | nil => rfl
    | cons t ts ih =>
      have hstack := stack_of_ne_nil (hrows t (.head _))
      simp only [storeStacked, Dict.ofKeys, List.map_cons, List.foldlM_cons, hstack,
        Option.bind_eq_bind, Option.bind_some, Option.pure_def, List.foldl_cons]
      exact ih fun u hu => hrows u (.tail _ hu)
  rw [hset, Dict.foldl_set h]

theorem blockTensors_add (m n : Nat) :
    blockTensors (m + n) = blockTensors m ++ List.range' m n ×ˢ Kind.all := by
  rw [blockTensors, blockTensors, List.range_eq_range', List.range_eq_range',
    ← List.range'_append_1, Nat.zero_add]
  exact List.flatMap_append

/-- What the passes over the first layers have collected. -/
def collectedUpTo (M : Pooled E V) (nLayers : Nat) (frames : List E) (layers : Nat) :
    Collected V where
  xList := if layers = 0 then [] else frames.map M.x
  yList := if nLayers ≤ layers then frames.map M.y else []
  tensorInputs := Dict.ofKeys ggmlName (fun t => frames.map (M.tensorIn t)) (blockTensors layers)
  tensorOutputs := Dict.ofKeys ggmlName (fun t => frames.map (M.tensorOut t)) (blockTensors layers)

theorem collectBatch_eq (hb : 0 < batchLayers) (hne : frames ≠ []) (hlt : start < nLayers) :
    collectBatch M nLayers batchLayers frames (collectedUpTo M nLayers frames start) start =
      some (collectedUpTo M nLayers frames (min (start + batchLayers) nLayers)) := by
  obtain ⟨n, hn⟩ : ∃ n, min (start + batchLayers) nLayers = start + n :=
    Nat.exists_eq_add_of_le (by omega)
  have hpos : 0 < n := by omega
  have hnd := nodup_blockTensors (start + n)
  rw [blockTensors_add] at hnd
  have hbatch : (batchTensors start (start + n)).Nodup := by
    rw [batchTensors, Nat.add_sub_cancel_left]
    exact (List.nodup_append.1 hnd).2.1
  have hnames : ((blockTensors start).map ggmlName ++
      (batchTensors start (start + n)).map ggmlName).Nodup := by
    rw [← List.map_append, batchTensors, Nat.add_sub_cancel_left]
    exact nodup_names hnd
  have hrows (f : Nat × Kind → E → V) (t : Nat × Kind) : frames.map (f t) ≠ [] :=
    fun h => hne (List.map_eq_nil_iff.1 h)
  simp only [collectBatch, hn, foldl_forward hbatch, collectedUpTo, List.nil_append]
  rw [storeStacked_eq (fun t _ => hrows _ t) (by rwa [Dict.ofKeys_keys]),
    storeStacked_eq (fun t _ => hrows _ t) (by rwa [Dict.ofKeys_keys])]
  simp only [Option.bind_eq_bind, Option.bind_some, Option.pure_def, ← Dict.ofKeys_append,
    batchTensors, Nat.add_sub_cancel_left, ← blockTensors_add]
  have hlate : ¬ nLayers ≤ start := by omega
  have hsome : start + n ≠ 0 := by omega
  congr 2
  · by_cases hstart : start = 0
    · simp only [hstart, decide_true, if_true, List.nil_append, Nat.zero_add, hpos.ne', if_false]
    · simp only [hstart, decide_false, Bool.false_eq_true, if_false, hsome]
  · simp only [decide_eq_true_eq, hlate, if_false, List.nil_append]

theorem collectBatches_eq (hb : 0 < batchLayers) (hne : frames ≠ [])
    (hk : k ≤ (nLayers + batchLayers - 1) / batchLayers) (hL : 0 < nLayers) :
    ((List.range k).map (· * batchLayers)).foldlM (collectBatch M nLayers batchLayers frames)
        ⟨[], [], [], []⟩ =
      some (collectedUpTo M nLayers frames (min (k * batchLayers) nLayers)) := by
  induction k with
  | zero => simp [collectedUpTo, blockTensors, Dict.ofKeys, hL.ne']
  | succ k ih =>
    have hlt := mul_lt_of_lt_ceilDiv hk
    rw [List.range_succ, List.map_append, List.foldlM_append, ih (Nat.le_of_succ_le hk)]
    simp only [Option.bind_eq_bind, Option.bind_some, List.map_singleton, List.foldlM_cons,
      List.foldlM_nil, Nat.min_eq_left hlt.le, collectBatch_eq hb hne hlt, Option.bind_some,
      Option.pure_def, Nat.succ_mul]

theorem collectLayers_eq (hb : 0 < batchLayers) (hL : 0 < nLayers) (hne : frames ≠ []) :
    collectLayers M nLayers batchLayers frames =
      some (TensorActivations.ofFrames M nLayers frames) := by
  have hcover := Nat.min_eq_right (le_ceilDiv_mul hb nLayers)
  have hrows (f : E → V) : frames.map f ≠ [] := fun h => hne (List.map_eq_nil_iff.1 h)
  rw [collectLayers, batchStarts, collectBatches_eq hb hne le_rfl hL, hcover]
  simp only [Option.bind_eq_bind, Option.bind_some, collectedUpTo, hL.ne', if_false, le_refl,
    if_true, stack_of_ne_nil (hrows _), Option.pure_def, TensorActivations.ofFrames]

theorem collectLayers_zero (batchLayers : Nat) : collectLayers M 0 batchLayers frames = none := by
  have hnone : (0 + batchLayers - 1) / batchLayers = 0 := by
    rcases Nat.eq_zero_or_pos batchLayers with rfl | hb
    · rfl
    · exact Nat.div_eq_of_lt (by omega)
  rw [collectLayers, batchStarts, hnone]
  rfl

/-- Without a frame nothing is hooked, and the first stack fails. -/
theorem collectLayers_nil (hL : 0 < nLayers) (hb : 0 < batchLayers) :
    collectLayers M nLayers batchLayers [] = none := by
  obtain ⟨q, hq⟩ : ∃ q, (nLayers + batchLayers - 1) / batchLayers = q + 1 :=
    Nat.exists_eq_succ_of_ne_zero (Nat.div_pos (by omega) hb).ne'
  obtain ⟨n, hn⟩ : ∃ n, min (0 + batchLayers) nLayers = n + 1 :=
    Nat.exists_eq_succ_of_ne_zero (by omega)
  rw [collectLayers, batchStarts, hq, List.range_succ_eq_map, List.map_cons, List.foldlM_cons,
    Nat.zero_mul]
  have hfirst : collectBatch M nLayers batchLayers [] ⟨[], [], [], []⟩ 0 = none := by
    simp only [collectBatch, hn, batchTensors, Nat.sub_zero, List.range'_succ, List.foldl_nil]
    rfl
  rw [hfirst]
  rfl

theorem collectLayers_of_pos (hb : 0 < batchLayers) (hL : 0 < nLayers) (frames : List E) :
    collectLayers M nLayers batchLayers frames =
      (stack frames).map (TensorActivations.ofFrames M nLayers) := by
  rcases eq_or_ne frames [] with rfl | hne
  · exact collectLayers_nil hL hb
  · rw [collectLayers_eq hb hL hne, stack_of_ne_nil hne, Option.map_some]

end Passes

section Shards
variable {M : Pooled E V} {nLayers batchLayers g : Nat}

theorem mergeActivations_ofFrames {parts : List (List E)} (hne : parts ≠ []) :
    mergeActivations (parts.map (TensorActivations.ofFrames M nLayers)) =
      some (TensorActivations.ofFrames M nLayers parts.flatten) := by
  have hrows (f : E → V) :
      concatenate (parts.map fun frames => frames.map f) = some (parts.flatten.map f) := by
    rw [concatenate_of_ne_nil fun h => hne (List.map_eq_nil_iff.1 h), List.map_flatten]
  have hmerged (f : Nat × Kind → E → V) :
      ((parts.map fun frames => Dict.ofKeys ggmlName (fun t => frames.map (f t))
          (blockTensors nLayers)).foldl Dict.appendAll []).map (fun e => (e.1, e.2.flatten)) =
        Dict.ofKeys ggmlName (fun t => parts.flatten.map (f t)) (blockTensors nLayers) := by
    rw [Dict.foldl_appendAll (fun frames t => frames.map (f t))
      (nodup_names (nodup_blockTensors nLayers)) hne, Dict.ofKeys, Dict.ofKeys, List.map_map]
    simp only [Function.comp_def, List.map_flatten]
  simp only [mergeActivations, List.map_map, Function.comp_def, TensorActivations.ofFrames,
    Option.getD_some, hrows, hmerged, Option.bind_eq_bind, Option.bind_some, Option.pure_def]

theorem mergeActivations_shards {frames : List σ} {f : List σ → List E} (hg : 0 < g)
    (hne : frames ≠ []) (hf : ((shards g frames).map f).flatten = all) :
    mergeActivations ((shards g frames).map fun chunk =>
        TensorActivations.ofFrames M nLayers (f chunk)) =
      some (TensorActivations.ofFrames M nLayers all) := by
  have hparts : (shards g frames).map f ≠ [] :=
    fun h => shards_ne_nil hg hne (List.map_eq_nil_iff.1 h)
  have hmerge : mergeActivations (((shards g frames).map f).map
      (TensorActivations.ofFrames M nLayers)) = _ := mergeActivations_ofFrames hparts
  rwa [List.map_map, hf] at hmerge

/-- However the frames are cut into layer batches and shards, the same rows are collected. -/
theorem collectActivationsMultiGpu_eq (hb : 0 < batchLayers) (hg : 0 < g) (hL : 0 < nLayers)
    (hne : frames ≠ []) :
    collectActivationsMultiGpu M nLayers batchLayers g frames =
      some (TensorActivations.ofFrames M nLayers frames) := by
  have hruns := mapM_eq_some_map (l := shards g frames)
    (f := fun chunk => collectTensorActivations M nLayers batchLayers chunk.length chunk)
    fun chunk hchunk => by
      rw [collectTensorActivations, List.take_length]
      exact collectLayers_eq hb hL (ne_nil_of_mem_shards hchunk)
  rw [collectActivationsMultiGpu, hruns]
  exact mergeActivations_shards (f := fun chunk => chunk) hg hne
    (by rw [List.map_id', flatten_shards hg])

/-- The merge fails when a worker does, and when there is none. -/
theorem merge_eq_none {chunks : List σ} {f : σ → Option (TensorActivations V)}
    (h : chunks = [] ∨ ∃ chunk ∈ chunks, f chunk = none) :
    (chunks.mapM f).bind mergeActivations = none := by
  rcases h with rfl | ⟨chunk, hchunk, hf⟩
  · rfl
  · rw [mapM_eq_none hchunk hf, Option.bind_none]

theorem collectActivationsMultiGpu_of_pos (hb : 0 < batchLayers) (hg : 0 < g) (hL : 0 < nLayers)
    (frames : List E) : collectActivationsMultiGpu M nLayers batchLayers g frames =
      (stack frames).map (TensorActivations.ofFrames M nLayers) := by
  rcases eq_or_ne frames [] with rfl | hne
  · exact merge_eq_none (.inl (shards_nil g))
  · rw [collectActivationsMultiGpu_eq hb hg hL hne, stack_of_ne_nil hne, Option.map_some]

/-- A frame that cannot be read fails the shard it is in. -/
theorem exists_shard_of_unread {arrs : List E} {indices : List Nat} (hg : 0 < g)
    (h : indices.mapM (arrs[·]?) = none) :
    ∃ chunk ∈ shards g indices, chunk.mapM (arrs[·]?) = none := by
  by_contra hno
  have hread : ∀ i ∈ indices, ∃ e, arrs[i]? = some e := by
    intro i hi
    rw [← flatten_shards hg indices] at hi
    obtain ⟨chunk, hchunk, hi⟩ := List.mem_flatten.1 hi
    cases hc : chunk.mapM (arrs[·]?) with
    | none => exact absurd ⟨chunk, hchunk, hc⟩ hno
    | some es => exact isSome_of_mapM hc hi
  obtain ⟨es, hes⟩ := exists_mapM hread
  rw [hes] at h
  cases h

theorem lt_length_of_mapM {arrs es : List E} {indices : List Nat}
    (h : indices.mapM (arrs[·]?) = some es)
    (hi : i ∈ indices) : i < arrs.length := by
  obtain ⟨e, he⟩ := isSome_of_mapM h hi
  exact (List.getElem?_eq_some_iff.1 he).1

theorem collectActivationsMultiGpuVlaInput_of_pos {arrs : List E} (hb : 0 < batchLayers)
    (hg : 0 < g) (hw : 0 < w) (hL : 0 < nLayers) (indices : List Nat) :
    collectActivationsMultiGpuVlaInput M nLayers batchLayers g w arrs indices =
      (indices.mapM (arrs[·]?)).bind fun frames =>
        (stack frames).map (TensorActivations.ofFrames M nLayers) := by
  have hgw := Nat.mul_pos hg hw
  cases hread : indices.mapM (arrs[·]?) with
  | none =>
    obtain ⟨chunk, hchunk, hunread⟩ := exists_shard_of_unread hgw hread
    exact merge_eq_none (.inr ⟨chunk, hchunk, by
      rw [collectTensorActivationsVlaInput, hunread]
      rfl⟩)
  | some frames =>
    rcases eq_or_ne indices [] with rfl | hne
    · cases hread
      exact merge_eq_none (.inl (shards_nil _))
    · have hlen := length_of_mapM hread
      have hframes : frames ≠ [] := by
        rw [← List.length_pos_iff, hlen]
        exact List.length_pos_of_ne_nil hne
      obtain ⟨e₀, _⟩ := List.exists_mem_of_ne_nil _ hframes
      have hlt (i : Nat) (hi : i ∈ indices) : i < arrs.length := lt_length_of_mapM hread hi
      rw [mapM_getElem? e₀ hlt] at hread
      cases hread
      have hruns := mapM_eq_some_map (l := shards (g * w) indices)
        (f := collectTensorActivationsVlaInput M nLayers batchLayers arrs)
        (g := fun chunk =>
          TensorActivations.ofFrames M nLayers (chunk.map fun i => arrs.getD i e₀))
        fun chunk hchunk => by
          have hmem (i : Nat) (hi : i ∈ chunk) : i ∈ indices := by
            rw [← flatten_shards hgw indices]
            exact List.mem_flatten_of_mem hchunk hi
          rw [collectTensorActivationsVlaInput,
            mapM_getElem? e₀ fun i hi => hlt i (hmem i hi)]
          exact collectLayers_eq hb hL fun hnil =>
            ne_nil_of_mem_shards hchunk (List.map_eq_nil_iff.1 hnil)
      rw [collectActivationsMultiGpuVlaInput, hruns, Option.bind_some, stack_of_ne_nil hframes,
        Option.map_some]
      exact mergeActivations_shards hgw hne (by rw [← List.map_flatten, flatten_shards hgw])

section NoLayers
variable (frames : List E) (indices : List Nat) (arrs : List E)

theorem collectActivationsMultiGpu_zero (g : Nat) :
    collectActivationsMultiGpu M 0 batchLayers g frames = none := by
  apply merge_eq_none
  cases hs : shards g frames with
  | nil => exact .inl rfl
  | cons chunk _ => exact .inr ⟨chunk, .head _, collectLayers_zero _⟩

theorem collectTensorActivationsVlaInput_zero :
    collectTensorActivationsVlaInput M 0 batchLayers arrs indices = none := by
  rw [collectTensorActivationsVlaInput]
  cases indices.mapM (arrs[·]?) with
  | none => rfl
  | some frames => exact collectLayers_zero _

theorem collectActivationsMultiGpuVlaInput_zero (g w : Nat) :
    collectActivationsMultiGpuVlaInput M 0 batchLayers g w arrs indices = none := by
  apply merge_eq_none
  cases hs : shards (g * w) indices with
  | nil => exact .inl rfl
  | cons chunk _ =>
    exact .inr ⟨chunk, .head _, collectTensorActivationsVlaInput_zero chunk arrs⟩

end NoLayers
end Shards

end ActQuant.Hsic
