import ActQuant.Lib.Bytes
import ActQuant.Lib.Dict
import ActQuant.Lib.Layout
import ActQuant.Quant.GgmlType
import Mathlib.Data.List.TakeWhile

namespace ActQuant.Gguf
open ActQuant.Lib ActQuant.Quant

abbrev Bytes := List UInt8

/-- The bytes of a text without characters past ASCII. -/
def bytes (text : String) : Bytes := text.toList.map fun c => c.toNat.toUInt8

/-- What is left of a string after `c_str`. -/
def cStr (s : Bytes) : Bytes := s.takeWhile (· ≠ 0)

def NulFree (s : Bytes) : Prop := 0 ∉ s

theorem cStr_eq_self (h : NulFree s) : cStr s = s := by
  rw [cStr, List.takeWhile_eq_self_iff]
  intro b hb
  rw [decide_eq_true_eq]
  rintro rfl
  exact h hb

theorem nulFree_cStr (s : Bytes) : NulFree (cStr s) := by
  intro h
  have hne := List.mem_takeWhile_imp h
  rw [decide_eq_true_eq] at hne
  exact hne rfl

theorem cStr_eq_self_iff : cStr s = s ↔ NulFree s :=
  ⟨fun h => h ▸ nulFree_cStr s, cStr_eq_self⟩

/-- `gguf_type`, without the arrays. -/
inductive GgufType where
  | uint8 | int8 | uint16 | int16 | uint32 | int32 | float32 | bool | string
  | uint64 | int64 | float64
  deriving DecidableEq

/-- The values of a type, a floating-point number being its bits. -/
def GgufType.Val : GgufType → Type
  | .uint8 => UInt8
  | .int8 => Int8
  | .uint16 => UInt16
  | .int16 => Int16
  | .uint32 => UInt32
  | .int32 => Int32
  | .float32 => UInt32
  | .bool => Bool
  | .string => Bytes
  | .uint64 => UInt64
  | .int64 => Int64
  | .float64 => UInt64

instance (t : GgufType) : DecidableEq t.Val :=
  match t with
  | .uint8 => inferInstanceAs (DecidableEq UInt8)
  | .int8 => inferInstanceAs (DecidableEq Int8)
  | .uint16 => inferInstanceAs (DecidableEq UInt16)
  | .int16 => inferInstanceAs (DecidableEq Int16)
  | .uint32 => inferInstanceAs (DecidableEq UInt32)
  | .int32 => inferInstanceAs (DecidableEq Int32)
  | .float32 => inferInstanceAs (DecidableEq UInt32)
  | .bool => inferInstanceAs (DecidableEq Bool)
  | .string => inferInstanceAs (DecidableEq Bytes)
  | .uint64 => inferInstanceAs (DecidableEq UInt64)
  | .int64 => inferInstanceAs (DecidableEq Int64)
  | .float64 => inferInstanceAs (DecidableEq UInt64)

/-- `GGUF_TYPE_SIZE`; a string has none. -/
def GgufType.size : GgufType → Nat
  | .uint8 | .int8 | .bool => 1
  | .uint16 | .int16 => 2
  | .uint32 | .int32 | .float32 => 4
  | .uint64 | .int64 | .float64 => 8
  | .string => 0

/-- The bytes a value takes in a file. -/
def GgufType.valBytes : (t : GgufType) → t.Val → Nat
  | .string, s => 8 + List.length (s : List UInt8)
  | t, _ => t.size

/-- The value of a `gguf_kv`. -/
inductive KvValue where
  | scalar (type : GgufType) (value : type.Val)
  | array (type : GgufType) (values : List type.Val)
  deriving DecidableEq

/-- The pairs of a `gguf_context`. -/
abbrev Kvs := Dict Bytes KvValue

def kvBytes (kv : Bytes × KvValue) : Nat :=
  8 + kv.1.length + match kv.2 with
    | .scalar type value => 4 + type.valBytes value
    | .array type values => 4 + 4 + 8 + (values.map type.valBytes).sum

/-- `gguf_get_val_u32`, which asks for one value of its type, and takes an array of one. -/
def KvValue.valU32 : KvValue → Option UInt32
  | .scalar .uint32 v => some v
  | .array .uint32 [v] => some v
  | _ => none

theorem KvValue.eq_of_valU32 {v : KvValue} (h : v.valU32 = some x) :
    v = .scalar .uint32 x ∨ v = .array .uint32 [x] := by
  unfold KvValue.valU32 at h
  split at h
  · cases h
    exact .inl rfl
  · cases h
    exact .inr rfl
  · cases h

def generalAlignment : Bytes := bytes "general.alignment"

/-- The test for a power of two. -/
def validAlignment (alignment : UInt32) : Bool := alignment ≠ 0 ∧ alignment &&& (alignment - 1) = 0

def findKey (kvs : Kvs) (key : Bytes) : Option (Bytes × KvValue) :=
  kvs.find? fun kv => cStr kv.1 = key

def defaultAlignment : Nat := 32

/-- The alignment a reader goes by; there is none where it stops at the key. -/
def alignment? (kvs : Kvs) : Option Nat :=
  match findKey kvs generalAlignment with
  | none => some defaultAlignment
  | some kv => (kv.2.valU32.filter validAlignment).map UInt32.toNat

/-- `gguf_check_reserved_keys`. -/
def checkReservedKeys (key : Bytes) : KvValue → Bool
  | .scalar .uint32 v => key ≠ generalAlignment || validAlignment v
  | _ => key ≠ generalAlignment

/-- `gguf_set_val_*` and `gguf_set_arr_data`, none where an assertion fails. -/
def ggufSet (kvs : Kvs) (key : Bytes) (value : KvValue) : Option Kvs :=
  let key := cStr key
  if checkReservedKeys key value ∧ key ≠ [] then some (kvs.put (key, value)) else none

/-- A tensor as its info describes it. -/
structure TensorInfo where
  name : Bytes
  type : GgmlType
  ne0 : Nat
  ne1 : Nat
  ne2 : Nat
  ne3 : Nat
  ne1_pos : 0 < ne1
  ne2_pos : 0 < ne2
  ne3_pos : 0 < ne3
  deriving DecidableEq

/-- `ggml_n_dims`. -/
def TensorInfo.nDims (t : TensorInfo) : Nat :=
  if 1 < t.ne3 then 4 else if 1 < t.ne2 then 3 else if 1 < t.ne1 then 2 else 1

/-- The rows of all the slices of a tensor. -/
def TensorInfo.rows (t : TensorInfo) : Nat := t.ne1 * t.ne2 * t.ne3

def TensorInfo.nbytes (t : TensorInfo) : Nat :=
  t.type.traits.typeSize * t.ne0 / t.type.blckSize * t.rows

def TensorInfo.infoBytes (t : TensorInfo) : Nat := 8 + t.name.length + 4 + 8 * t.nDims + 4 + 8

/-- The row length fits the blocks of the type. -/
def TensorInfo.WholeBlocks (t : TensorInfo) : Prop :=
  0 < t.type.blckSize ∧ t.type.blckSize ∣ t.ne0

/-- The bytes in front of the data section: magic, version, the two counts, pairs and infos. -/
def metaBytes (kvs : Kvs) (infos : List TensorInfo) : Nat :=
  4 + 4 + 8 + 8 + (kvs.map kvBytes).sum + (infos.map TensorInfo.infoBytes).sum

def dataOffset (alignment : Nat) (kvs : Kvs) (infos : List TensorInfo) : Nat :=
  padTo alignment (metaBytes kvs infos)

def tensorOffsets (alignment : Nat) (infos : List TensorInfo) : List Nat :=
  paddedOffsets alignment 0 (infos.map TensorInfo.nbytes)

/-- What is written with one alignment is found with another: the reader's check of the offsets
passes, and all that is not empty is where it looks for it. -/
def FoundWith (written read : Nat) (kvs : Kvs) (infos : List TensorInfo) : Prop :=
  tensorOffsets written infos = tensorOffsets read infos ∧
    (dataOffset written kvs infos = dataOffset read kvs infos ∨ ∀ t ∈ infos, t.nbytes = 0)

instance (written read : Nat) (kvs : Kvs) (infos : List TensorInfo) :
    Decidable (FoundWith written read kvs infos) :=
  inferInstanceAs (Decidable (_ ∧ _))

/-- What is written from a context of the default alignment reads back as it was written. -/
structure Readable (kvs : Kvs) (infos : List TensorInfo) : Prop where
  keys_nodup : (kvs.map Prod.fst).Nodup
  names_nodup : (infos.map TensorInfo.name).Nodup
  wholeBlocks : ∀ t ∈ infos, t.WholeBlocks
  found : ∃ alignment, alignment? kvs = some alignment ∧
    FoundWith defaultAlignment alignment kvs infos

end ActQuant.Gguf

namespace ActQuant.Gguf
open ActQuant.Lib

/-- The number of a type in a file; 9 is an array. -/
def GgufType.number : GgufType → Nat
  | .uint8 => 0
  | .int8 => 1
  | .uint16 => 2
  | .int16 => 3
  | .uint32 => 4
  | .int32 => 5
  | .float32 => 6
  | .bool => 7
  | .string => 8
  | .uint64 => 10
  | .int64 => 11
  | .float64 => 12

def arrayNumber : Nat := 9

/-- The bits of a value; a string is not held in them. -/
def GgufType.bits : (t : GgufType) → t.Val → Nat
  | .uint8, v => UInt8.toNat v
  | .int8, v => (Int8.toUInt8 v).toNat
  | .uint16, v => UInt16.toNat v
  | .int16, v => (Int16.toUInt16 v).toNat
  | .uint32, v => UInt32.toNat v
  | .int32, v => (Int32.toUInt32 v).toNat
  | .float32, v => UInt32.toNat v
  | .bool, v => Bool.toNat v
  | .string, _ => 0
  | .uint64, v => UInt64.toNat v
  | .int64, v => (Int64.toUInt64 v).toNat
  | .float64, v => UInt64.toNat v

/-- A string as a file holds it: its length and its bytes. -/
def encodeStr (s : Bytes) : Bytes := leBytes 8 s.length ++ s

/-- A value as a file holds it. -/
def GgufType.encode : (t : GgufType) → t.Val → Bytes
  | .string, s => encodeStr s
  | t, v => leBytes t.size (t.bits v)

theorem length_encodeStr (s : Bytes) : (encodeStr s).length = 8 + s.length := by
  rw [encodeStr, List.length_append, length_leBytes]

theorem GgufType.length_encode (t : GgufType) (v : t.Val) : (t.encode v).length = t.valBytes v := by
  cases t with
  | string => exact length_encodeStr v
  | _ => exact length_leBytes _ _

end ActQuant.Gguf
