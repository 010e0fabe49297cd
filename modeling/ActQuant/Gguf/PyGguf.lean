import ActQuant.Lib.Chars
import ActQuant.Gguf.Container

namespace ActQuant.Gguf
open ActQuant.Lib ActQuant.Quant

/-- `GGUFValueType`. -/
inductive ValueType where
  | plain (type : GgufType)
  | array
  deriving DecidableEq

def ValueType.number : ValueType → Nat
  | .plain type => type.number
  | .array => arrayNumber

/-- An array of a file; its items may be arrays again. -/
inductive ArrayValue where
  | flat (type : GgufType) (items : List type.Val)
  | nested (items : List ArrayValue)

/-- The value of a metadata pair of a file. -/
inductive FileValue where
  | scalar (type : GgufType) (value : type.Val)
  | array (items : ArrayValue)

def FileValue.type : FileValue → ValueType
  | .scalar type _ => .plain type
  | .array _ => .array

/-- One of the numpy arrays a field is taken apart into. -/
structure Part where
  dtype : GgufType
  items : List dtype.Val

def Part.bytes (p : Part) : Bytes := p.items.flatMap p.dtype.encode

def getStr (s : Bytes) : List Part := [⟨.uint64, [s.length.toUInt64]⟩, ⟨.uint8, s⟩]

/-- `_get_field_parts` for a string or a number. -/
def scalarParts : (type : GgufType) → type.Val → List Part
  | .string, s => getStr s
  | type, v => [⟨type, [v]⟩]

/-- The item type and the length in front of the items of an array. -/
def arrayHead (itemType length : Nat) : List Part :=
  [⟨.uint32, [itemType.toUInt32]⟩, ⟨.uint64, [length.toUInt64]⟩]

mutual
/-- `_get_field_parts` for an array: the parts of all its items in one list. -/
def ArrayValue.parts : ArrayValue → List Part
  | .flat type items => arrayHead type.number items.length ++ items.flatMap (scalarParts type)
  | .nested items => arrayHead arrayNumber items.length ++ partsAll items
def partsAll : List ArrayValue → List Part
  | [] => []
  | a :: as => a.parts ++ partsAll as
end

/-- The types of an array go on with those of its first item. -/
def ArrayValue.types : ArrayValue → List ValueType
  | .flat _ [] => [.array]
  | .flat type (_ :: _) => [.array, .plain type]
  | .nested [] => [.array]
  | .nested (a :: _) => .array :: a.types

def FileValue.parts : FileValue → List Part
  | .scalar type value => scalarParts type value
  | .array items => items.parts

def FileValue.types : FileValue → List ValueType
  | .scalar type _ => [.plain type]
  | .array items => items.types

/-- What a `ReaderField` holds beside its name. -/
structure ReaderField where
  offset : Nat
  parts : List Part
  types : List ValueType

abbrev Fields := Dict (List Char) ReaderField

/-- `_push_field`: a name that is taken gets the offset of the field behind it. -/
def pushField (fields : Fields) (name : List Char) (field : ReaderField) : Fields :=
  if (fields.map Prod.fst).contains name then
    fields.set (name ++ '_' :: decimal field.offset) field
  else fields.set name field

def partsSize (parts : List Part) : Nat := (parts.map fun p => p.bytes.length).sum

/-- The field of a metadata pair: the key, the type and then the parts of the value. -/
def kvField (offs : Nat) (key : Bytes) (value : FileValue) : ReaderField :=
  ⟨offs, getStr key ++ ⟨.uint32, [value.type.number.toUInt32]⟩ :: value.parts, value.types⟩

def buildFields : Nat → List (Bytes × FileValue) → Fields → Option Fields
  | _, [], fields => some fields
  | offs, (key, value) :: kvs, fields => do
    let name ← decodeUtf8 key
    let field := kvField offs key value
    buildFields (offs + partsSize field.parts) kvs (pushField fields name field)

/-- A tensor of a file, with the bytes its offset points at. -/
structure FileTensor where
  name : Bytes
  dims : List Nat
  type : GgmlType
  data : Bytes
  deriving DecidableEq

structure GgufFile where
  version : UInt32
  kvs : List (Bytes × FileValue)
  tensors : List FileTensor

def versionField : List Char := "GGUF.version".toList
def tensorCountField : List Char := "GGUF.tensor_count".toList
def kvCountField : List Char := "GGUF.kv_count".toList

/-- The fields the reader makes out of the head of the file. -/
def bookkeeping (f : GgufFile) : Fields :=
  [(versionField, ⟨4, [⟨.uint32, [f.version]⟩], [.plain .uint32]⟩),
   (tensorCountField, ⟨8, [⟨.uint64, [f.tensors.length.toUInt64]⟩], [.plain .uint64]⟩),
   (kvCountField, ⟨8, [⟨.uint64, [f.kvs.length.toUInt64]⟩], [.plain .uint64]⟩)]

def readerFields (f : GgufFile) : Option Fields := buildFields 24 f.kvs (bookkeeping f)

/-- `GGML_QUANT_SIZES`; the removed types are missing, and `Q8_1` is given a larger block. -/
def quantSizes (type : GgmlType) : Option (Nat × Nat) :=
  match type with
  | .q8_1 => some (32, 4 + 4 + 32)
  | type => if type.blckSize = 0 then none else some (type.blckSize, type.traits.typeSize)

/-- The dtypes of the data of a tensor. -/
inductive DType where
  | float16 | float32 | float64 | int8 | int16 | int32 | int64 | uint8
  deriving DecidableEq

/-- The dtype a type is read as; all that have none of their own are bytes. -/
def itemType : GgmlType → DType
  | .f16 => .float16
  | .f32 => .float32
  | .f64 => .float64
  | .i8 => .int8
  | .i16 => .int16
  | .i32 => .int32
  | .i64 => .int64
  | _ => .uint8

/-- A `ReaderTensor`; the shape of its array is given from the last axis to the first. -/
structure ReaderTensor where
  name : List Char
  type : GgmlType
  dtype : DType
  dims : List Nat
  data : Bytes

def quantShapeToByteShape (dims : List Nat) (sizes : Nat × Nat) : Option (List Nat) :=
  match dims with
  | [] => none
  | ne0 :: dims => if ne0 % sizes.1 = 0 then some (ne0 / sizes.1 * sizes.2 :: dims) else none

def quantShapeFromByteShape (dims : List Nat) (sizes : Nat × Nat) : Option (List Nat) :=
  match dims with
  | [] => none
  | ne0 :: dims => if ne0 % sizes.2 = 0 then some (ne0 / sizes.2 * sizes.1 :: dims) else none

/-- The shape of the array that the data of a tensor are read as. -/
def arrayShape (t : FileTensor) (sizes : Nat × Nat) : Option (List Nat) :=
  if itemType t.type = .uint8 then quantShapeToByteShape t.dims sizes else some t.dims

/-- The body of the loop of `_build_tensors`; data the file does not hold cannot be reshaped. -/
def buildTensor (t : FileTensor) : Option ReaderTensor := do
  let name ← decodeUtf8 t.name
  let sizes ← quantSizes t.type
  let dims ← arrayShape t sizes
  if t.data.length = t.dims.prod * sizes.2 / sizes.1 then
    some ⟨name, t.type, itemType t.type, dims, t.data⟩
  else none

def readerTensors (f : GgufFile) : Option (List ReaderTensor) := do
  let tensors ← f.tensors.mapM buildTensor
  if (tensors.map ReaderTensor.name).Nodup then some tensors else none

/-- The reader asks for the type of the alignment, not for its value. -/
def alignmentFieldOk (fields : Fields) : Bool :=
  match fields.lookup "general.alignment".toList with
  | none => true
  | some field => field.types = [.plain .uint32]

/-- `GGUFReader.__init__` on a file in the byte order of the machine. -/
def ggufReader (f : GgufFile) : Option (Fields × List ReaderTensor) := do
  let fields ← readerFields f
  let tensors ← readerTensors f
  if (f.version = 2 ∨ f.version = 3) ∧ alignmentFieldOk fields then some (fields, tensors) else none

/-- What a file that is read passes. -/
theorem of_ggufReader (h : ggufReader f = some (fields, tensors)) :
    readerFields f = some fields ∧ f.tensors.mapM buildTensor = some tensors ∧
      (tensors.map ReaderTensor.name).Nodup := by
  simp only [ggufReader, readerTensors, Option.bind_eq_bind, Option.bind_eq_some_iff,
    Option.ite_none_right_eq_some, Option.some.injEq, Prod.mk.injEq] at h
  obtain ⟨fields', hfields, tensors', ⟨ts, hts, hnodup, rfl⟩, -, rfl, rfl⟩ := h
  exact ⟨hfields, hts, hnodup⟩

/-- A Python object that can stand for a metadata value. A Python float is given by the single
precision number it was made from. -/
inductive PyObj where
  | np (dtype : GgufType) (value : dtype.Val)
  | str (s : List Char)
  | bool (b : Bool)
  | int (n : Int)
  | float (single : UInt32)

/-- The items of a part as numpy hands them out. -/
def Part.objects (p : Part) : List PyObj := p.items.map (.np p.dtype)

/-- `bool(x)`, as it is used: of a numpy bool. -/
def pyBool : PyObj → PyObj
  | .np .bool b => .bool b
  | o => o

/-- `int(x)`, as it is used: of the 32-bit numbers. -/
def pyInt : PyObj → PyObj
  | .np .int32 x => .int (Int32.toInt x)
  | .np .uint32 x => .int (UInt32.toNat x)
  | o => o

/-- `float(x)`, as it is used: of single precision. -/
def pyFloat : PyObj → PyObj
  | .np .float32 x => .float x
  | o => o

/-- `GGUFValueType.get_type`, none where it raises; of the numpy numbers only a double is one of
Python's own types. -/
def getType : PyObj → Option GgufType
  | .str _ => some .string
  | .float _ => some .float32
  | .np .float64 _ => some .float32
  | .bool _ => some .bool
  | .int _ => some .int32
  | .np _ _ => none

/-- A single made a double and back is itself, but for a NaN that signals. -/
def quiet (x : UInt32) : UInt32 :=
  if 0x7f800000 < x &&& 0x7fffffff then x ||| 0x400000 else x

/-- A double rounded to a single, none where it overflows. -/
def narrow (x : UInt64) : Option UInt32 :=
  let sign := (x >>> 63).toUInt32 <<< 31
  let exponent := (x >>> 52).toNat % 2 ^ 11
  let fraction := x.toNat % 2 ^ 52
  if exponent = 2047 then
    let payload := if fraction = 0 then 0 else (2 ^ 22 ||| fraction / 2 ^ 29).toUInt32
    some (sign ||| 0x7f800000 ||| payload)
  else
    -- the double is `significand * 2 ^ (place - 1075)`, a subnormal one has no hidden bit
    let significand := if exponent = 0 then fraction else fraction + 2 ^ 52
    let place := max exponent 1
    let shift := max 29 (926 - place)
    let quotient := significand / 2 ^ shift
    let rest := significand % 2 ^ shift
    let up := 2 ^ shift < 2 * rest ∨ 2 * rest = 2 ^ shift ∧ quotient % 2 = 1
    let bits := (place - 897) * 2 ^ 23 + if up then quotient + 1 else quotient
    if bits < 0x7f800000 then some (sign ||| bits.toUInt32) else none

/-- `struct.pack` of a numpy number in the format of its own type. -/
def packNp (type : GgufType) : PyObj → Option type.Val
  | .np dtype value => if h : dtype = type then some (h ▸ value) else none
  | _ => none

def packFloat32 : PyObj → Option GgufType.float32.Val
  | .float x => some (quiet x)
  | .np .float32 x => some (quiet x)
  | .np .float64 x => narrow x
  | _ => none

def packInt32 : PyObj → Option GgufType.int32.Val
  | .int n => if -2 ^ 31 ≤ n ∧ n < 2 ^ 31 then some (Int32.ofInt n) else none
  | o => packNp .int32 o

def packBool : PyObj → Option GgufType.bool.Val
  | .bool b => some b
  | o => packNp .bool o

def packStr : PyObj → Option GgufType.string.Val
  | .str s => some (encodeUtf8 s)
  | _ => none

/-- `_pack_val` for an item that is no array, none where `struct.pack` raises. -/
def packItem (type : GgufType) (o : PyObj) : Option type.Val :=
  match type with
  | .string => packStr o
  | .float32 => packFloat32 o
  | .int32 => packInt32 o
  | .bool => packBool o
  | type => packNp type o

/-- `GGUFValue`: one object under its type, or a list of them under `ARRAY`. -/
inductive GgufValue where
  | scalar (type : GgufType) (value : PyObj)
  | array (values : List PyObj)

/-- `_pack_val` for a value under a key. -/
def packVal : GgufValue → Option FileValue
  | .scalar type value => (packItem type value).map (.scalar type)
  | .array [] => none
  | .array (value :: values) => do
    let type ← getType value
    if values.all fun v => getType v = some type then
      let packed ← (value :: values).mapM (packItem type)
      some (.array (.flat type packed))
    else none

abbrev WriterKvs := Dict (List Char) GgufValue

def addString (kvs : WriterKvs) (key val : List Char) : WriterKvs :=
  if val = [] then kvs else kvs.set key (.scalar .string (.str val))

def addArray (kvs : WriterKvs) (key : List Char) (val : List PyObj) : WriterKvs :=
  match val with
  | [] => kvs
  | _ :: _ => kvs.set key (.array val)

def generalArchitecture : List Char := "general.architecture".toList

/-- `GGUFWriter.__init__`. -/
def newWriter (arch : String) : WriterKvs := addString [] generalArchitecture arch.toList

/-- A tensor as the writer holds it until the file is written. -/
structure WriterTensor where
  name : List Char
  type : GgmlType
  dims : List Nat
  data : Bytes

/-- The type of an array that is written without a raw dtype. -/
def typeOfDType : DType → Option GgmlType
  | .float16 => some .f16
  | .float32 => some .f32
  | .float64 => some .f64
  | .int8 => some .i8
  | .int16 => some .i16
  | .int32 => some .i32
  | .int64 => some .i64
  | .uint8 => none

/-- The type and the shape that `add_tensor_info` gives to the data of a tensor that was read. -/
def tensorInfo (t : ReaderTensor) : Option (GgmlType × List Nat) :=
  if t.dtype = .uint8 then do
    let sizes ← quantSizes t.type
    let dims ← quantShapeFromByteShape t.dims sizes
    some (t.type, dims)
  else do
    let type ← typeOfDType t.dtype
    some (type, t.dims)

/-- `add_tensor` of the data of a tensor that was read, as the tools call it: with its own type
as the raw dtype where the data are bytes. -/
def addTensor (tensors : List WriterTensor) (name : List Char) (t : ReaderTensor) :
    Option (List WriterTensor) := do
  let (type, dims) ← tensorInfo t
  if (tensors.map WriterTensor.name).contains name then none
  else some (tensors ++ [⟨name, type, dims, t.data⟩])

/-- A tensor info as it is written. -/
structure WrittenInfo where
  name : Bytes
  dims : List Nat
  type : GgmlType
  offset : Nat

/-- A file by its pairs, its tensor infos and its data section. -/
structure WrittenFile where
  kvs : List (Bytes × FileValue)
  infos : List WrittenInfo
  data : Bytes


def writeTiData : Nat → List WriterTensor → List WrittenInfo
  | _, [] => []
  | offset, t :: ts =>
    ⟨encodeUtf8 t.name, t.dims, t.type, offset⟩ ::
      writeTiData (offset + padTo defaultAlignment t.data.length) ts

/-- `write_tensors_to_file`: the data of the tensors, each padded. -/
def writeTensors (tensors : List WriterTensor) : Bytes :=
  tensors.flatMap fun t =>
    t.data ++ List.replicate (padTo defaultAlignment t.data.length - t.data.length) 0

def fileBytes (type : GgmlType) (dims : List Nat) : Nat :=
  match quantSizes type with
  | some sizes => dims.prod * sizes.2 / sizes.1
  | none => 0

/-- The tensors that the infos of a file name, each with the bytes its offset points at. -/
def WrittenFile.tensors (f : WrittenFile) : List FileTensor :=
  f.infos.map fun i =>
    ⟨i.name, i.dims, i.type, (f.data.drop i.offset).take (fileBytes i.type i.dims)⟩

def writeKvData (kvs : WriterKvs) : Option (List (Bytes × FileValue)) :=
  kvs.mapM fun kv => (packVal kv.2).map fun value => (encodeUtf8 kv.1, value)

end ActQuant.Gguf
