import ActQuant.Gguf.WriterEncode
import ActQuant.Quant.BlockChoice
import Mathlib.Data.List.Lex

namespace ActQuant.Quantize
open ActQuant.Lib ActQuant.Gguf ActQuant.Quant

/-- The characters of a name, one for each byte. -/
def chars (name : Bytes) : List Char := name.map fun b => Char.ofNat b.toNat

/-- `std::to_string` of a number that is not negative. -/
def decimalBytes (n : Nat) : Bytes := (decimal n).map fun c => c.toNat.toUInt8

/-- `blk\.(\d+)\.` at the start of a name: its digits. -/
def matchAt (name : List Char) : Option (List Char) :=
  if "blk.".toList.isPrefixOf name then
    let digits := (name.drop 4).takeWhile Char.isDigit
    if digits ≠ [] ∧ (name.drop (4 + digits.length)).head? = some '.' then some digits else none
  else none

/-- `std::regex_search` for `blk\.(\d+)\.`: where the digits are, and what they are. -/
def layerMatch : List Char → Option (Nat × List Char)
  | [] => none
  | c :: name =>
    match matchAt (c :: name) with
    | some digits => some (4, digits)
    | none => (layerMatch name).map fun m => (m.1 + 1, m.2)

/-- `std::string::replace` of what was matched. -/
def replaceAt (name : Bytes) (m : Nat × List Char) (new : Bytes) : Bytes :=
  name.take m.1 ++ (new ++ name.drop (m.1 + m.2.length))

/-- The layer in `weight_name_comparer`. -/
def comparedLayer (name : Bytes) : Int := (scanLayer (chars name)).getD (-1)

/-- `weight_name_comparer`. -/
def nameLess (a b : Bytes) : Prop :=
  if comparedLayer a ≠ comparedLayer b then comparedLayer a < comparedLayer b else a < b


/-- `llama_tensor_weight`: a tensor of an input file that was accepted, under the name it has
there. -/
structure LoaderWeight where
  idx : Nat
  offs : Nat
  info : TensorInfo
  idx_lt : idx + 1 < 2 ^ 16
  admitted : Admitted info
  ne_lt : info.ne0 < 2 ^ 63 ∧ info.ne1 < 2 ^ 63 ∧ info.ne2 < 2 ^ 63 ∧ info.ne3 < 2 ^ 63
  name_lt : info.name.length < maxName
  name_nulFree : NulFree info.name

def LoaderWeight.name (w : LoaderWeight) : Bytes := w.info.name

def LoaderWeight.nbytes (w : LoaderWeight) : Nat := w.info.ggmlNbytes

/-- What of `llama_model_loader` is read: the pairs of the first file, the bytes of the files, and
`weights_map` in its order. -/
structure ModelLoader where
  kvs : Kvs
  files : List Bytes
  weights : List LoaderWeight
  sorted : weights.Pairwise fun v w => nameLess v.name w.name
  inFile : ∀ w ∈ weights, ∃ file, files[w.idx]? = some file ∧ w.offs + w.nbytes ≤ file.length

namespace ModelLoader
variable (ml : ModelLoader)

/-- So many bytes from where a weight lies, if its file holds them. -/
def bytesAt (w : LoaderWeight) (nbytes : Nat) : Option Bytes :=
  ml.files[w.idx]?.bind fun file =>
    if w.offs + nbytes ≤ file.length then some ((file.drop w.offs).take nbytes) else none

/-- `load_data_for`, for a tensor of a name and a size. -/
def loadDataFor (name : Bytes) (nbytes : Nat) : Option Bytes :=
  (ml.weights.find? fun w => w.name = name).bind fun w => ml.bytesAt w nbytes

end ModelLoader

/-- The map of the layers and the next layer number. -/
structure Remap where
  mapped : List (Nat × Bytes)
  nextId : Nat

/-- `std::map::operator[]` on a key that is not in the map. -/
def insertMapped (e : Nat × Bytes) : List (Nat × Bytes) → List (Nat × Bytes)
  | [] => [e]
  | e' :: es => if e.1 < e'.1 then e :: e' :: es else e' :: insertMapped e es

/-- The layer of a name is mapped, unless it is already. -/
def Remap.mapLayer (r : Remap) (prune : List Int) (blk : Nat) : Remap :=
  if (r.mapped.lookup blk).isSome then r
  else if (blk : Int) ∈ prune then { r with mapped := insertMapped (blk, []) r.mapped }
  else if (blk : Int) < prune.headD 0 then ⟨insertMapped (blk, decimalBytes blk) r.mapped, blk + 1⟩
  else ⟨insertMapped (blk, decimalBytes r.nextId) r.mapped, r.nextId + 1⟩

/-- `remap_layer`, none where `std::stoi` throws. -/
def remapLayer (prune : List Int) (r : Remap) (name : Bytes) : Option (Bytes × Remap) :=
  if prune = [] then some (name, r)
  else
    match layerMatch (chars name) with
    | none => some (name, r)
    | some m =>
      let blk := Nat.ofDigitChars 10 m.2 0
      if 2 ^ 31 ≤ blk then none
      else
        let r := r.mapLayer prune blk
        let label := (r.mapped.lookup blk).getD []
        some (if label = [] then [] else replaceAt name m label, r)

/-- `remap_imatrix`, none where it aborts. -/
def remapImatrix (mapped : List (Nat × Bytes)) (name : Bytes) : Option Bytes :=
  if mapped = [] then some name
  else
    match layerMatch (chars name) with
    | none => some name
    | some m =>
      (mapped.find? fun e => chars e.2 = m.2).map fun e => replaceAt name m (decimalBytes e.1)

/-- `ggml_set_name`. -/
def ggmlSetName (name : Bytes) : Bytes := (cStr name).take (maxName - 1)

/-- A weight that is kept, with the name its tensor has then. -/
structure Kept where
  weight : LoaderWeight
  name : Bytes
  name_lt : name.length < maxName
  name_nulFree : NulFree name

theorem length_ggmlSetName_lt (name : Bytes) : (ggmlSetName name).length < maxName :=
  Nat.lt_of_le_of_lt (List.length_take_le _ _) (by decide)

theorem nulFree_ggmlSetName (name : Bytes) : NulFree (ggmlSetName name) :=
  fun h => nulFree_cStr name (List.mem_of_mem_take h)

namespace Kept
variable (k : Kept)

def info : TensorInfo := { k.weight.info with name := k.name }

/-- The tensor as `gguf_add_tensor` gets it. -/
def tensor : GgmlTensor where
  info := k.info
  nb := k.info.strides
  data := none
  ne_lt := k.weight.ne_lt
  name_lt := k.name_lt
  name_nulFree := k.name_nulFree
  blckSize_pos := k.weight.admitted.wholeBlocks.1

end Kept

/-- The weight under its new name. -/
def LoaderWeight.keep (w : LoaderWeight) (remapped : Bytes) : Kept :=
  if remapped = w.name then ⟨w, w.name, w.name_lt, w.name_nulFree⟩
  else ⟨w, ggmlSetName remapped, length_ggmlSetName_lt _, nulFree_ggmlSetName _⟩

/-- The loop that makes the list of weights. -/
def remapWeights (prune : List Int) : Remap → List LoaderWeight → Option (List Kept × Remap)
  | r, [] => some ([], r)
  | r, w :: ws =>
    (remapLayer prune r w.name).bind fun m =>
      (remapWeights prune m.2 ws).map fun rest =>
        (if m.1 = [] then rest.1 else w.keep m.1 :: rest.1, rest.2)


/-- `llama_model_kv_override`; a floating-point value is given by its bits as a `float`. -/
inductive KvOverride where
  | float (bits : UInt32)
  | int (value : Int64)
  | bool (value : Bool)
  | str (value : Bytes)
  | unknown

/-- The parameters of a run. The choice of the types and the conversion of the data are given by
functions; `Entry` is an entry of the importance matrix. -/
structure Settings (State Entry : Type) where
  fileType : UInt32
  kvOverrides : List (Bytes × KvOverride)
  pruneLayers : List Int
  keepSplit : Bool
  arch : Bytes
  imatrix : Option (Bytes → Option Entry)
  attentionExpected : List Bytes → List Bytes → Bool
  validRowData : GgmlType → Bytes → Bool
  start : State
  getType : State → TensorInfo → Option (Decision × State)
  convert : TensorInfo → GgmlType → Bytes → Option Entry → Option Bytes

section Metadata

def keyQuantizationVersion : Bytes := bytes "general.quantization_version"
def keyFileType : Bytes := bytes "general.file_type"
def keySplitNo : Bytes := bytes "split.no"
def keySplitCount : Bytes := bytes "split.count"
def keySplitTensorsCount : Bytes := bytes "split.tensors.count"
def keyBlockCount (arch : Bytes) : Bytes := arch ++ bytes ".block_count"

def ggmlQntVersion : UInt32 := 2

/-- A turn of the loop over the overrides. -/
def setOverride (ctx : WriterContext) (o : Bytes × KvOverride) : Option WriterContext :=
  match o.2 with
  | .float bits => ctx.setVal o.1 .float32 bits
  | .int value => ctx.setVal o.1 .uint32 (UInt32.ofNat value.toInt.natAbs)
  | .bool value => ctx.setVal o.1 .bool value
  | .str value => ctx.setVal o.1 .string value
  | .unknown => some ctx

variable {State Entry : Type} (s : Settings State Entry)

/-- The pairs of the first output file, before the layers are counted. -/
def copyKvs (kvs : Kvs) : Option WriterContext := do
  let ctx ← ggufInitEmpty.setKv kvs
  let ctx ← ctx.setVal keyQuantizationVersion .uint32 ggmlQntVersion
  let ctx ← ctx.setVal keyFileType .uint32 s.fileType
  let ctx := ((ctx.removeKey keySplitNo).removeKey keySplitCount).removeKey keySplitTensorsCount
  run setOverride ctx (s.kvOverrides.takeWhile fun o => cStr o.1 ≠ [])

def setBlockCount (ctx : WriterContext) (nextId : Nat) : Option WriterContext :=
  if s.pruneLayers = [] then some ctx
  else ctx.setVal (keyBlockCount s.arch) .uint32 (UInt32.ofNat nextId)

end Metadata

section Contexts

/-- `ctx_outs`, by the index of the split. -/
abbrev Contexts := Nat → Option WriterContext

variable {State Entry : Type} (s : Settings State Entry)

/-- The split a tensor is written to. -/
def splitOf (k : Kept) : Nat := if s.keepSplit then k.weight.idx else 0

/-- The tensors in the order in which they are written. -/
def sortedKept (kept : List Kept) : List Kept :=
  if s.keepSplit then
    kept.mergeSort fun a b =>
      if a.weight.idx = b.weight.idx then a.weight.offs ≤ b.weight.offs
      else a.weight.idx < b.weight.idx
  else kept

def numSplits (kept : List Kept) : Nat :=
  if s.keepSplit then kept.foldl (fun n k => max (k.weight.idx + 1) n) 1 else 1

/-- A tensor is added to the context of its split. -/
def addKept (ctxs : Contexts) (k : Kept) : Option Contexts :=
  (((ctxs (splitOf s k)).getD ggufInitEmpty).addTensor k.tensor).map fun ctx =>
    Function.update ctxs (splitOf s k) (some ctx)

/-- The pairs that say which split a file is; a context that was never made is a null pointer. -/
def setSplitInfo (nSplit nTensors : Nat) (ctxs : Contexts) (i : Nat) : Option Contexts := do
  let ctx ← ctxs i
  let ctx ← ctx.setVal keySplitNo .uint16 (UInt16.ofNat i)
  let ctx ← ctx.setVal keySplitCount .uint16 (UInt16.ofNat nSplit)
  let ctx ← ctx.setVal keySplitTensorsCount .int32 (Int32.ofNat nTensors)
  return Function.update ctxs i (some ctx)

def setSplitInfos (kept : List Kept) (ctxs : Contexts) : Option Contexts :=
  let nSplit := numSplits s kept
  if nSplit > 1 then run (setSplitInfo nSplit kept.length) ctxs (List.range nSplit) else some ctxs

/-- The contexts with which the loop starts. -/
def initialContexts (ctx : WriterContext) (kept : List Kept) : Option Contexts :=
  (run (addKept s) (Function.update (fun _ => none) 0 (some ctx)) kept).bind (setSplitInfos s kept)

end Contexts

section Data
variable {State Entry : Type} (s : Settings State Entry) (ml : ModelLoader)

/-- The entry of the importance matrix for a tensor, none where the name cannot be mapped back. -/
def lookupImatrix (mapped : List (Nat × Bytes)) (name : Bytes) : Option (Option Entry) :=
  match s.imatrix with
  | none => some none
  | some entries => (remapImatrix mapped name).map entries

/-- The new type and the new data of a tensor whose data are loaded. -/
def newTensor (mapped : List (Nat × Bytes)) (st : State) (k : Kept) (data : Bytes) :
    Option ((GgmlType × Bytes) × State) :=
  if s.validRowData k.info.type data then
    (s.getType st k.info).bind fun d =>
      if d.1.quantize then
        (lookupImatrix s mapped k.name).bind fun entry =>
          (s.convert k.info d.1.type data entry).map fun new => ((d.1.type, new), d.2)
      else some ((k.info.type, data), d.2)
  else none

/-- `load_data_for` and the conversion. -/
def loadTensor (mapped : List (Nat × Bytes)) (st : State) (k : Kept) :
    Option ((GgmlType × Bytes) × State) :=
  (ml.loadDataFor k.name k.info.ggmlNbytes).bind (newTensor s mapped st k)

end Data

/-- A file that is closed: its header, the bytes left free for it at the start, and the tensor data
in the order they were written. -/
structure OutputFile where
  index : Nat
  ctx : WriterContext
  placeholder : Nat
  chunks : List Bytes

/-- What is written for a tensor. -/
def paddedChunk (data : Bytes) : Bytes := data ++ zeros defaultAlignment data.length

/-- The metadata are written over the first bytes. -/
def OutputFile.bytes (f : OutputFile) : Bytes :=
  f.ctx.paddedMeta ++
    (List.replicate f.placeholder 0 ++ f.chunks.flatMap paddedChunk).drop f.ctx.paddedMeta.length

/-- The state of the loop: the contexts, the state of the choice, the open file and the closed
ones. -/
structure Stream (State : Type) where
  ctxs : Contexts
  state : State
  index : Nat
  placeholder : Nat
  chunks : List Bytes
  closed : List OutputFile

namespace Stream
variable {State : Type} (st : Stream State)

/-- `new_ofstream`. -/
def newOfstream (index : Nat) : Option (Stream State) :=
  (st.ctxs index).map fun ctx =>
    { st with index := index, placeholder := ctx.paddedMeta.length, chunks := [] }

/-- `close_ofstream`; no file can be longer than its offsets say. -/
def closeOfstream : Option (Stream State) :=
  (st.ctxs st.index).bind fun ctx =>
    let file : OutputFile := ⟨st.index, ctx, st.placeholder, st.chunks⟩
    if file.bytes.length < 2 ^ 63 then some { st with closed := st.closed ++ [file] } else none

/-- The type of a tensor is set, the size asserted and the data written. -/
def writeTensor (name : Bytes) (new : (GgmlType × Bytes) × State) : Option (Stream State) := do
  let ctx ← st.ctxs st.index
  let ctx ← ctx.setTensorType name new.1.1
  let t ← ctx.infos.find? fun t => t.1.info.name = name
  if t.1.nbytes ≠ new.1.2.length then none
  else
    return { st with
      ctxs := Function.update st.ctxs st.index (some ctx)
      state := new.2
      chunks := st.chunks ++ [new.1.2] }

end Stream

section Run
variable {State Entry : Type} (s : Settings State Entry) (ml : ModelLoader)

/-- The file of a tensor is opened if it is not open. -/
def switchFile (st : Stream State) (k : Kept) : Option (Stream State) :=
  if k.weight.idx ≠ st.index ∧ s.keepSplit = true then
    st.closeOfstream.bind fun st => st.newOfstream k.weight.idx
  else some st

/-- A turn of the loop over the tensors. -/
def processTensor (mapped : List (Nat × Bytes)) (st : Stream State) (k : Kept) :
    Option (Stream State) :=
  (switchFile s st k).bind fun st =>
    (loadTensor s ml mapped st.state k).bind (st.writeTensor k.name)

def streamTensors (mapped : List (Nat × Bytes)) (ctxs : Contexts) (kept : List Kept) :
    Option (List OutputFile) :=
  (Stream.newOfstream ⟨ctxs, s.start, 0, 0, [], []⟩ 0).bind fun st =>
    (run (processTensor s ml mapped) st kept).bind fun st =>
      st.closeOfstream.map Stream.closed

/-- `llama_model_quantize_impl` behind the loading of the model: the files of a run that comes to
its end. -/
def llamaModelQuantizeImpl : Option (List OutputFile) := do
  let ctx ← copyKvs s ml.kvs
  let r ← remapWeights s.pruneLayers ⟨[], 0⟩ ml.weights
  let ctx ← setBlockCount s ctx r.2.nextId
  let kept := sortedKept s r.1
  if s.attentionExpected (ml.weights.map LoaderWeight.name) (kept.map Kept.name) then
    let ctxs ← initialContexts s ctx kept
    streamTensors s ml r.2.mapped ctxs kept
  else none

end Run

end ActQuant.Quantize
