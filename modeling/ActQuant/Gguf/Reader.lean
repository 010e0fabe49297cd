import ActQuant.Gguf.Container
import ActQuant.Lib.Reader

namespace ActQuant.Gguf
open ActQuant.Lib ActQuant.Quant ActQuant.Lib.Reader

/-- What ends the process in the reader. -/
inductive Fault where
  | emptyKey
  | uncaughtException
  | alignmentValue
  | divisionByZero
  | noMemBuffer
  | noObject
  | beyondPool
  deriving DecidableEq

/-- Whether so many bytes asked for by a length in the file can be had. -/
abbrev Memory := Nat → Bool

abbrev word (n : Nat) : Nat := n % 2 ^ 64

/-- `GGML_PAD` on 64 bits, the alignment being a power of two. -/
def ggmlPad (x alignment : Nat) : Nat := word (x + alignment - 1) / alignment * alignment

def GgufType.ofNumber : Nat → Option GgufType
  | 0 => some .uint8
  | 1 => some .int8
  | 2 => some .uint16
  | 3 => some .int16
  | 4 => some .uint32
  | 5 => some .int32
  | 6 => some .float32
  | 7 => some .bool
  | 8 => some .string
  | 10 => some .uint64
  | 11 => some .int64
  | 12 => some .float64
  | _ => none

/-- The value with some bits; every byte but zero is true. -/
def GgufType.ofBits : (t : GgufType) → Nat → t.Val
  | .uint8, n => n.toUInt8
  | .int8, n => n.toUInt8.toInt8
  | .uint16, n => n.toUInt16
  | .int16, n => n.toUInt16.toInt16
  | .uint32, n => n.toUInt32
  | .int32, n => n.toUInt32.toInt32
  | .float32, n => n.toUInt32
  | .bool, n => decide (n ≠ 0)
  | .string, _ => ([] : Bytes)
  | .uint64, n => n.toUInt64
  | .int64, n => n.toUInt64.toInt64
  | .float64, n => n.toUInt64

/-- `gr.read(std::string)`, with what follows where the string cannot be allocated. -/
def readString (mem : Memory) (throws : Reader Fault Bytes) : Reader Fault Bytes := do
  let size ← number 8
  if mem size then Reader.bytes size else throws

/-- `gr.read(T)`. -/
def readValue (mem : Memory) (throws : Reader Fault Bytes) : (t : GgufType) → Reader Fault t.Val
  | .string => readString mem throws
  | t => do
    let n ← number t.size
    return t.ofBits n

/-- The bytes of a `std::vector` of values; that of strings holds their headers. -/
def GgufType.vectorBytes : GgufType → Nat → Nat
  | .bool, n => (n + 63) / 64 * 8
  | .string, n => 32 * n
  | t, n => t.size * n

/-- `gr.read(std::vector<T>)`, all of whose exceptions are caught. -/
def readArray (mem : Memory) (t : GgufType) (n : Nat) : Reader Fault (List t.Val) :=
  if mem (t.vectorBytes n) then
    loop (fun values => do
      let value ← readValue mem null t
      return values ++ [value]) n []
  else null

/-- The `switch` over the type of an array. -/
def readArrayValue (mem : Memory) (type n : Nat) : Reader Fault KvValue :=
  match GgufType.ofNumber type with
  | none => null
  | some t => do
    let values ← readArray mem t n
    return .array t values

/-- The `switch` over the type of a scalar, which is read outside of the `try`. -/
def readScalarValue (mem : Memory) (type : Nat) : Reader Fault KvValue :=
  match GgufType.ofNumber type with
  | none => null
  | some t => do
    let value ← readValue mem (crash .uncaughtException) t
    return .scalar t value

/-- The type of a pair and its value. -/
def readKvValue (mem : Memory) : Reader Fault KvValue := do
  let type ← number 4
  if type = arrayNumber then do
    let type ← number 4
    let n ← number 8
    readArrayValue mem type n
  else readScalarValue mem type

/-- The constructor of `gguf_kv`. -/
def emplaceBack (kvs : Kvs) (key : Bytes) (value : KvValue) : Reader Fault Kvs :=
  if key = [] then crash .emptyKey else pure (kvs ++ [(key, value)])

/-- A turn of the loop over the pairs. -/
def readKv (mem : Memory) (kvs : Kvs) : Reader Fault Kvs := do
  let key ← readString mem null
  if (kvs.map Prod.fst).contains key then null
  else do
    let value ← readKvValue mem
    emplaceBack kvs key value

/-- `gguf_get_val_u32` on the alignment, and the test of its value. -/
def readAlignmentValue (value : KvValue) : Reader Fault Nat :=
  match value.valU32 with
  | none => crash .alignmentValue
  | some v => if validAlignment v then pure v.toNat else null

def readAlignment (kvs : Kvs) : Reader Fault Nat :=
  match findKey kvs generalAlignment with
  | none => pure defaultAlignment
  | some kv => readAlignmentValue kv.2

def ggufMagic : Bytes := bytes "GGUF"
def ggufVersion : Nat := 3
def sizeofKv : Nat := 88
def sizeofTensorInfo : Nat := 344

structure Header where
  version : Nat
  nTensors : Nat
  nKv : Nat
  deriving DecidableEq

/-- The magic and the header; a count from `2 ^ 63` on is a negative one. -/
def readHeader : Reader Fault Header := do
  let magic ← Reader.bytes 4
  if magic ≠ ggufMagic then null
  else do
    let version ← number 4
    if version = 0 ∨ version % 2 ^ 16 = 0 ∨ version = 1 ∨ ggufVersion < version then null
    else do
      let nTensors ← number 8
      if (2 ^ 64 - 1) / sizeofTensorInfo < nTensors then null
      else do
        let nKv ← number 8
        if (2 ^ 64 - 1) / sizeofKv < nKv then null
        else return ⟨version, nTensors, nKv⟩

/-- The dimensions of a tensor past the checks. -/
structure Shape where
  ne0 : Nat
  ne1 : Nat
  ne2 : Nat
  ne3 : Nat
  ne1_pos : 0 < ne1
  ne2_pos : 0 < ne2
  ne3_pos : 0 < ne3

/-- A dimension, which is not negative, or one past the last. -/
def readDim (nDims j : Nat) : Reader Fault Nat :=
  if j < nDims then do
    let ne ← number 8
    if 2 ^ 63 ≤ ne then null else return ne
  else pure 1

def maxInt64 : Nat := 2 ^ 63 - 1

/-- The check of the number of elements, with the divisions by `ne[1]`, `ne[2]` and `ne[3]`. -/
def checkElements (ne0 ne1 ne2 ne3 : Nat) : Reader Fault Shape :=
  if h1 : ne1 = 0 then crash .divisionByZero
  else if maxInt64 / ne1 ≤ ne0 then null
  else if h2 : ne2 = 0 then crash .divisionByZero
  else if maxInt64 / ne2 ≤ ne0 * ne1 then null
  else if h3 : ne3 = 0 then crash .divisionByZero
  else if maxInt64 / ne3 ≤ ne0 * ne1 * ne2 then null
  else pure ⟨ne0, ne1, ne2, ne3, Nat.pos_of_ne_zero h1, Nat.pos_of_ne_zero h2,
    Nat.pos_of_ne_zero h3⟩

def Shape.info (shape : Shape) (name : Bytes) (type : GgmlType) : TensorInfo :=
  ⟨name, type, shape.ne0, shape.ne1, shape.ne2, shape.ne3, shape.ne1_pos, shape.ne2_pos,
    shape.ne3_pos⟩

def readShape (nDims : Nat) : Reader Fault Shape := do
  let ne0 ← readDim nDims 0
  let ne1 ← readDim nDims 1
  let ne2 ← readDim nDims 2
  let ne3 ← readDim nDims 3
  checkElements ne0 ne1 ne2 ne3

/-- The checks of the type by its number: it is in range, and the rows are whole blocks. -/
def knownType (ne0 type : Nat) : Reader Fault GgmlType :=
  match GgmlType.all[type]? with
  | none => null
  | some t => if t.blckSize = 0 ∨ ne0 % t.blckSize ≠ 0 then null else pure t

def readType (ne0 : Nat) : Reader Fault GgmlType := do
  let type ← number 4
  knownType ne0 type

/-- The infos with their offsets. -/
abbrev Infos := List (TensorInfo × Nat)

def maxName : Nat := 64
def maxDims : Nat := 4

/-- A turn of the loop over the tensor infos. -/
def readTensorInfo (mem : Memory) (infos : Infos) : Reader Fault Infos := do
  let name ← readString mem null
  if maxName ≤ name.length then null
  else if (infos.map (·.1.name)).contains (cStr name) then null
  else do
    let nDims ← number 4
    if maxDims < nDims then null
    else do
      let shape ← readShape nDims
      let type ← readType shape.ne0
      let offset ← number 8
      return infos ++ [(shape.info (cStr name) type, offset)]

structure Meta where
  version : Nat
  kvs : Kvs
  alignment : Nat
  infos : Infos
  deriving DecidableEq

/-- `gguf_init_from_file_impl` up to the data section. -/
def readMeta (mem : Memory) : Reader Fault Meta := do
  let header ← readHeader
  let kvs ← loop (readKv mem) header.nKv []
  let alignment ← readAlignment kvs
  let infos ← loop (readTensorInfo mem) header.nTensors []
  return ⟨header.version, kvs, alignment, infos⟩

/-- `ggml_tensor::nb`. -/
structure Strides where
  nb0 : Nat
  nb1 : Nat
  nb2 : Nat
  nb3 : Nat
  deriving DecidableEq

section Sizes
variable (t : TensorInfo)

def TensorInfo.nb1 : Nat := word (t.type.traits.typeSize * (t.ne0 / t.type.blckSize))
def TensorInfo.nb2 : Nat := word (t.nb1 * t.ne1)
def TensorInfo.nb3 : Nat := word (t.nb2 * t.ne2)

/-- The strides of the shape and the type. -/
def TensorInfo.strides : Strides := ⟨t.type.traits.typeSize, t.nb1, t.nb2, t.nb3⟩

/-- `ggml_nbytes`; only `ne[0]` can be zero here. -/
def ggmlNbytes (nb : Strides) : Nat :=
  if t.ne0 = 0 then 0
  else
    let rest := (t.ne1 - 1) * nb.nb1 + (t.ne2 - 1) * nb.nb2 + (t.ne3 - 1) * nb.nb3
    if t.type.blckSize = 1 then
      word (t.type.traits.typeSize + (t.ne0 - 1) * nb.nb0 + rest)
    else word (word (t.ne0 * nb.nb0) / t.type.blckSize + rest)

def TensorInfo.ggmlNbytes : Nat := Gguf.ggmlNbytes t t.strides

end Sizes

/-- The size of the data section, and the check of the offsets against it. -/
def dataSize (alignment : Nat) : Nat → Infos → Option Nat
  | size, [] => some size
  | size, (t, offset) :: infos =>
    if offset ≠ size then none
    else
      let paddedSize := ggmlPad t.ggmlNbytes alignment
      if 2 ^ 64 - 1 - size < paddedSize then none
      else dataSize alignment (size + paddedSize) infos

def memAlign : Nat := 16
def objectSize : Nat := 32
def tensorSize : Nat := 336
def tensorOverhead : Nat := objectSize + tensorSize

/-- `ggml_init`: the size of the pool, the assertion being that there is one. -/
def ggmlInit (mem : Memory) (memSize : Nat) : Load Fault Nat :=
  let memSize := ggmlPad (if memSize = 0 then memAlign else memSize) memAlign
  if memSize = 0 ∨ ¬ mem memSize then .crash .noMemBuffer else .ok memSize

/-- `ggml_new_object`: the new end of the objects, the assertion being that it fits the pool. -/
def ggmlNewObject (pool curEnd size : Nat) : Load Fault Nat :=
  let sizeNeeded := ggmlPad size memAlign
  if pool < word (curEnd + sizeNeeded + objectSize) then .crash .noObject
  else .ok (word (curEnd + objectSize + sizeNeeded))

/-- The tensors without data of their own. -/
def ggmlNewTensors (pool : Nat) : Nat → Nat → Load Fault Nat
  | 0, curEnd => .ok curEnd
  | n + 1, curEnd => (ggmlNewObject pool curEnd tensorSize).bind (ggmlNewTensors pool n)

structure InitParams where
  ctx : Bool
  noAlloc : Bool

/-- A file; its offsets are signed. -/
structure File where
  bytes : Bytes
  length_lt : bytes.length < 2 ^ 63

structure GgufContext where
  head : Meta
  offset : Nat
  size : Nat
  data : Option Bytes
  deriving DecidableEq

/-- The tensor data, read into a context of its own if asked for. -/
def loadData (mem : Memory) (params : InitParams) (file : File) (nTensors offset size : Nat) :
    Load Fault (Option Bytes) :=
  if ¬ params.ctx then .ok none
  else if params.noAlloc then do
    let pool ← ggmlInit mem (word (nTensors * tensorOverhead))
    let _ ← ggmlNewTensors pool nTensors 0
    return none
  else do
    let pool ← ggmlInit mem (word ((nTensors + 1) * tensorOverhead + size))
    let curEnd ← ggmlNewObject pool 0 (word (tensorSize + size))
    let blob := file.bytes.drop offset
    -- `fread` puts what there is behind the object, whose size may have wrapped around
    if pool < tensorOverhead + min blob.length size then .crash .beyondPool
    else if blob.length < size then .null
    else do
      let _ ← ggmlNewTensors pool nTensors curEnd
      return some (blob.take size)

def ggufInitFromFile (mem : Memory) (params : InitParams) (file : File) :
    Load Fault GgufContext := do
  let (m, rest) ← readMeta mem file.bytes
  let offset := ggmlPad (file.bytes.length - rest.length) m.alignment
  if 2 ^ 63 ≤ offset then .null
  else
    match dataSize m.alignment 0 m.infos with
    | none => .null
    | some size => do
      let data ← loadData mem params file m.infos.length offset size
      return ⟨m, offset, size, data⟩

end ActQuant.Gguf
