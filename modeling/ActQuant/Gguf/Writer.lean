import ActQuant.Gguf.Reader
import ActQuant.Lib.Run

namespace ActQuant.Gguf
open ActQuant.Lib ActQuant.Quant

/-- A tensor that is given to the writer, of a type that is not removed; its data are where its
pointer or its buffer has them. -/
structure GgmlTensor where
  info : TensorInfo
  nb : Strides
  data : Option (Nat → UInt8)
  ne_lt : info.ne0 < 2 ^ 63 ∧ info.ne1 < 2 ^ 63 ∧ info.ne2 < 2 ^ 63 ∧ info.ne3 < 2 ^ 63
  name_lt : info.name.length < maxName
  name_nulFree : NulFree info.name
  blckSize_pos : 0 < info.type.blckSize

namespace GgmlTensor

def nbytes (t : GgmlTensor) : Nat := ggmlNbytes t.info t.nb

/-- The dimensions from the second on, each with its stride. -/
def contiguousFrom : Nat → List (Nat × Nat) → Bool
  | _, [] => true
  | next, (ne, nb) :: dims =>
    if ne ≠ 1 then nb = next && contiguousFrom (word (next * ne)) dims else contiguousFrom next dims

/-- `ggml_is_contiguous`. -/
def isContiguous (t : GgmlTensor) : Bool :=
  let next := t.info.type.traits.typeSize
  if t.info.ne0 ≠ t.info.type.blckSize ∧ t.nb.nb0 ≠ next then false
  else contiguousFrom (word (next * (t.info.ne0 / t.info.type.blckSize)))
    [(t.info.ne1, t.nb.nb1), (t.info.ne2, t.nb.nb2), (t.info.ne3, t.nb.nb3)]

/-- Where the next tensor starts. -/
def nextOffset (t : GgmlTensor) (alignment offset : Nat) : Nat :=
  word (offset + ggmlPad t.nbytes alignment)

/-- The type of a tensor is set, and its strides with it. -/
def setType (t : GgmlTensor) (type : GgmlType) (h : 0 < type.blckSize) : GgmlTensor :=
  { t with
    info := { t.info with type := type }
    nb := TensorInfo.strides { t.info with type := type }
    blckSize_pos := h }

end GgmlTensor

/-- The infos of a writer with their offsets. -/
abbrev WriterInfos := List (GgmlTensor × Nat)

/-- The offsets behind a tensor. -/
def updateOffsets (alignment : Nat) (t : GgmlTensor) (offset : Nat) : WriterInfos → WriterInfos
  | [] => []
  | (t', _) :: infos =>
    let offset := t.nextOffset alignment offset
    (t', offset) :: updateOffsets alignment t' offset infos

/-- The first tensor of a name gets the type; a division by the block size comes before the
assertion. -/
def setTypeIn (alignment : Nat) (name : Bytes) (type : GgmlType) :
    WriterInfos → Option WriterInfos
  | [] => none
  | (t, offset) :: infos =>
    if t.info.name = name then
      if h : 0 < type.blckSize then
        if t.info.ne0 % type.blckSize = 0 then
          let t := t.setType type h
          some ((t, offset) :: updateOffsets alignment t offset infos)
        else none
      else none
    else (setTypeIn alignment name type infos).map ((t, offset) :: ·)

/-- A `gguf_context` that is built up to be written. -/
structure WriterContext where
  kvs : Kvs
  infos : WriterInfos
  alignment : Nat

def ggufInitEmpty : WriterContext := ⟨[], [], defaultAlignment⟩

/-- A `std::vector` throws behind so many elements. -/
def maxSize (sizeof : Nat) : Nat := (2 ^ 63 - 1) / sizeof

namespace WriterContext
variable (ctx : WriterContext)

/-- `gguf_set_val_*`, `gguf_set_arr_*`: the checks, the removal of the key, the new pair. -/
def setValue (key : Bytes) (value : KvValue) : Option WriterContext :=
  (ggufSet ctx.kvs key value).bind fun kvs =>
    if maxSize sizeofKv < kvs.length then none else some { ctx with kvs := kvs }

/-- The strings are given by pointers, which end at a zero. -/
def setVal (key : Bytes) : (type : GgufType) → type.Val → Option WriterContext
  | .string, value => ctx.setValue key (.scalar .string (cStr value))
  | type, value => ctx.setValue key (.scalar type value)

/-- `gguf_set_arr_data`, which divides by the size of the type. -/
def setArrData (key : Bytes) (type : GgufType) (values : List type.Val) : Option WriterContext :=
  if type = .string then none else ctx.setValue key (.array type values)

def setArrStr (key : Bytes) (values : List Bytes) : Option WriterContext :=
  ctx.setValue key (.array .string (values.map cStr))

/-- A turn of the loop of `gguf_set_kv`. -/
def setKvPair (kv : Bytes × KvValue) : Option WriterContext :=
  match kv.2 with
  | .scalar type value => ctx.setVal kv.1 type value
  | .array .string values => ctx.setArrStr kv.1 values
  | .array type values => ctx.setArrData kv.1 type values

def setKv (src : Kvs) : Option WriterContext := run setKvPair ctx src

def removeKey (key : Bytes) : WriterContext :=
  { ctx with kvs := ctx.kvs.eraseP fun kv => kv.1 = cStr key }

def findTensor (name : Bytes) : Bool := (ctx.infos.map (·.1.info.name)).contains name

/-- The offset of a tensor that is added. -/
def endOffset : Nat :=
  match ctx.infos.getLast? with
  | none => 0
  | some (t, offset) => t.nextOffset ctx.alignment offset

/-- `gguf_add_tensor`. -/
def addTensor (t : GgmlTensor) : Option WriterContext :=
  if ctx.findTensor t.info.name then none
  else if maxSize sizeofTensorInfo ≤ ctx.infos.length then none
  else some { ctx with infos := ctx.infos ++ [(t, ctx.endOffset)] }

/-- `gguf_set_tensor_type`. -/
def setTensorType (name : Bytes) (type : GgmlType) : Option WriterContext :=
  (setTypeIn ctx.alignment (cStr name) type ctx.infos).map fun infos => { ctx with infos := infos }

end WriterContext

/-- A call on a context that is built up. -/
inductive WriterCall where
  | setVal (key : Bytes) (type : GgufType) (value : type.Val)
  | setArrData (key : Bytes) (type : GgufType) (values : List type.Val)
  | setArrStr (key : Bytes) (values : List Bytes)
  | setKv (src : Kvs)
  | removeKey (key : Bytes)
  | addTensor (t : GgmlTensor)
  | setTensorType (name : Bytes) (type : GgmlType)

/-- A call, none where it aborts. -/
def WriterContext.call (ctx : WriterContext) : WriterCall → Option WriterContext
  | .setVal key type value => ctx.setVal key type value
  | .setArrData key type values => ctx.setArrData key type values
  | .setArrStr key values => ctx.setArrStr key values
  | .setKv src => ctx.setKv src
  | .removeKey key => some (ctx.removeKey key)
  | .addTensor t => ctx.addTensor t
  | .setTensorType name type => ctx.setTensorType name type

def runCalls (calls : List WriterCall) : Option WriterContext :=
  run WriterContext.call ggufInitEmpty calls

/-- The number of a `ggml_type`. -/
def ggmlTypeNumber (type : GgmlType) : Nat := GgmlType.all.idxOf type

/-- `write(gguf_kv)` behind the key. -/
def encodeValue : KvValue → Bytes
  | .scalar type value => leBytes 4 type.number ++ type.encode value
  | .array type values =>
    leBytes 4 arrayNumber ++ (leBytes 4 type.number ++ (leBytes 8 values.length ++
      values.flatMap type.encode))

def encodeKv (kv : Bytes × KvValue) : Bytes := encodeStr kv.1 ++ encodeValue kv.2

/-- The dimensions that are written. -/
def encodeDims (t : TensorInfo) : Bytes :=
  ([t.ne0, t.ne1, t.ne2, t.ne3].take t.nDims).flatMap (leBytes 8)

/-- `write_tensor_meta`. -/
def encodeInfo (t : TensorInfo) (offset : Nat) : Bytes :=
  encodeStr t.name ++ (leBytes 4 t.nDims ++ (encodeDims t ++
    (leBytes 4 (ggmlTypeNumber t.type) ++ leBytes 8 offset)))

/-- `pad`: zeros up to a multiple of the alignment. -/
def zeros (alignment n : Nat) : Bytes := List.replicate (padTo alignment n - n) 0

namespace WriterContext
variable (ctx : WriterContext)

/-- `gguf_write_out` up to the padding of the metadata. -/
def encodeMeta : Bytes :=
  (ggufMagic ++ (leBytes 4 ggufVersion ++ (leBytes 8 ctx.infos.length ++
    leBytes 8 ctx.kvs.length))) ++ (ctx.kvs.flatMap encodeKv ++
      ctx.infos.flatMap fun t => encodeInfo t.1.info t.2)

def paddedMeta : Bytes := ctx.encodeMeta ++ zeros ctx.alignment ctx.encodeMeta.length

/-- `write_tensor_data` with its assertions, behind what is written. -/
def writeTensorData (offsetData : Nat) (written : Bytes) (t : GgmlTensor × Nat) : Option Bytes :=
  if written.length - offsetData ≠ t.2 then none
  else if ¬ t.1.isContiguous then none
  else
    match t.1.data with
    | none => none
    | some data =>
      let written := written ++ (List.range t.1.nbytes).map data
      some (written ++ zeros ctx.alignment written.length)

/-- `gguf_write_out`, none where an assertion fails. -/
def writeOut : Option Bytes :=
  ctx.infos.foldlM (ctx.writeTensorData ctx.paddedMeta.length) ctx.paddedMeta

end WriterContext


/-- Each tensor starts where the one before it ends. -/
inductive Chained (alignment : Nat) : Nat → WriterInfos → Prop where
  | nil : Chained alignment offset []
  | cons {t : GgmlTensor} {offset : Nat} {infos : WriterInfos}
      (h : Chained alignment (t.nextOffset alignment offset) infos) :
      Chained alignment offset ((t, offset) :: infos)

/-- The pair is one that a writer sets. -/
def SetPair (kv : Bytes × KvValue) : Prop :=
  kv.1 ≠ [] ∧ NulFree kv.1 ∧ checkReservedKeys kv.1 kv.2 = true

/-- What the calls keep. -/
structure WriterContext.Inv (ctx : WriterContext) : Prop where
  alignment : ctx.alignment = defaultAlignment
  keys_nodup : (ctx.kvs.map Prod.fst).Nodup
  pairs : ∀ kv ∈ ctx.kvs, SetPair kv
  kvs_le : ctx.kvs.length ≤ maxSize sizeofKv
  names_nodup : (ctx.infos.map (·.1.info.name)).Nodup
  infos_le : ctx.infos.length ≤ maxSize sizeofTensorInfo
  chained : Chained ctx.alignment 0 ctx.infos

section Offsets
variable {alignment : Nat} {infos infos' : WriterInfos}

theorem chained_updateOffsets (t : GgmlTensor) (offset : Nat) (infos : WriterInfos) :
    Chained alignment (t.nextOffset alignment offset) (updateOffsets alignment t offset infos) := by
  induction infos generalizing t offset with
  | nil => exact .nil
  | cons t' infos ih => exact .cons (ih t'.1 _)

theorem tensors_updateOffsets (alignment : Nat) (t : GgmlTensor) (offset : Nat)
    (infos : WriterInfos) : (updateOffsets alignment t offset infos).map (·.1) = infos.map (·.1) := by
  induction infos generalizing t offset with
  | nil => rfl
  | cons t' infos ih => rw [updateOffsets, List.map_cons, List.map_cons, ih]

/-- A type that is set leaves the names and the chain of offsets. -/
theorem setTypeIn_spec (h : setTypeIn alignment name type infos = some infos')
    (hchain : Chained alignment offset infos) : Chained alignment offset infos' ∧
      infos'.map (·.1.info.name) = infos.map (·.1.info.name) := by
  induction hchain generalizing infos' with
  | nil => cases h
  | @cons t offset infos hrest ih =>
    rw [setTypeIn] at h
    split at h
    case isTrue =>
      split at h
      case isFalse => cases h
      case isTrue hpos =>
        split at h
        case isFalse => cases h
        case isTrue =>
          cases h
          refine ⟨.cons (chained_updateOffsets _ _ _), ?_⟩
          have hnames := congrArg (List.map (·.info.name))
            (tensors_updateOffsets alignment (t.setType type hpos) offset infos)
          rw [List.map_map, List.map_map] at hnames
          exact congrArg (t.info.name :: ·) hnames
    case isFalse =>
      obtain ⟨rest, hrest', rfl⟩ := Option.map_eq_some_iff.1 h
      obtain ⟨hchain', hnames⟩ := ih hrest'
      exact ⟨.cons hchain', congrArg (t.info.name :: ·) hnames⟩

theorem Chained.concat (h : Chained alignment start infos)
    (hend : ∀ t ∈ infos.getLast?, offset = t.1.nextOffset alignment t.2)
    (hstart : infos = [] → offset = start) : Chained alignment start (infos ++ [(t, offset)]) := by
  induction h with
  | nil =>
    rw [hstart rfl]
    exact .cons .nil
  | @cons t' start infos _ ih =>
    refine .cons (ih ?_ ?_)
    · intro u hu
      refine hend u ?_
      cases infos with
      | nil => cases hu
      | cons u' us => exact hu
    · rintro rfl
      exact hend (t', start) rfl

end Offsets

namespace WriterContext
variable {ctx ctx' : WriterContext}

theorem Inv.setValue (h : ctx.Inv) (hset : ctx.setValue key value = some ctx') : ctx'.Inv := by
  obtain ⟨kvs, hkvs, hset⟩ := Option.bind_eq_some_iff.1 hset
  rw [ggufSet] at hkvs
  split at hkvs
  case isFalse => cases hkvs
  case isTrue hkey =>
    cases hkvs
    split at hset
    case isTrue => cases hset
    case isFalse hle =>
      cases hset
      refine { h with
        keys_nodup := Dict.nodup_put h.keys_nodup _
        kvs_le := Nat.le_of_not_lt hle
        pairs := ?_ }
      intro kv hkv
      obtain hkv | hkv := List.mem_append.1 hkv
      · exact h.pairs kv (List.mem_of_mem_eraseP hkv)
      · rw [List.mem_singleton] at hkv
        subst hkv
        exact ⟨hkey.2, nulFree_cStr key, hkey.1⟩

theorem setVal_eq (ctx : WriterContext) (key : Bytes) (type : GgufType) (value : type.Val) :
    ∃ value', ctx.setVal key type value = ctx.setValue key value' := by
  cases type with
  | string => exact ⟨_, rfl⟩
  | _ => exact ⟨_, rfl⟩

theorem Inv.setVal (h : ctx.Inv) (hset : ctx.setVal key type value = some ctx') : ctx'.Inv := by
  obtain ⟨value', heq⟩ := setVal_eq ctx key type value
  rw [heq] at hset
  exact h.setValue hset

theorem Inv.setArrData (h : ctx.Inv) (hset : ctx.setArrData key type values = some ctx') :
    ctx'.Inv := by
  rw [WriterContext.setArrData] at hset
  split at hset
  case isTrue => cases hset
  case isFalse => exact h.setValue hset

theorem Inv.setKvPair (h : ctx.Inv) (hset : ctx.setKvPair kv = some ctx') : ctx'.Inv := by
  rw [WriterContext.setKvPair] at hset
  split at hset
  · exact h.setVal hset
  · exact h.setValue hset
  · exact h.setArrData hset

theorem Inv.removeKey (h : ctx.Inv) (key : Bytes) : (ctx.removeKey key).Inv := by
  have hsub : (ctx.kvs.eraseP fun kv => kv.1 = cStr key).Sublist ctx.kvs := List.eraseP_sublist
  exact { h with
    keys_nodup := h.keys_nodup.sublist (hsub.map _)
    pairs := fun kv hkv => h.pairs kv (hsub.subset hkv)
    kvs_le := Nat.le_trans hsub.length_le h.kvs_le }

theorem Inv.addTensor (h : ctx.Inv) (hadd : ctx.addTensor t = some ctx') : ctx'.Inv := by
  rw [WriterContext.addTensor] at hadd
  split at hadd
  case isTrue => cases hadd
  case isFalse hnew =>
    split at hadd
    case isTrue => cases hadd
    case isFalse hroom =>
      cases hadd
      rw [findTensor, List.contains_iff_mem] at hnew
      refine { h with names_nodup := ?_, infos_le := ?_, chained := ?_ }
      · rw [List.map_append]
        refine List.nodup_append.2 ⟨h.names_nodup, List.nodup_singleton _, ?_⟩
        rintro name hname _ hlast rfl
        rw [List.map_singleton, List.mem_singleton] at hlast
        exact hnew (hlast ▸ hname)
      · rw [List.length_append]
        exact Nat.lt_of_not_le hroom
      · refine h.chained.concat ?_ ?_
        · intro u hu
          rw [endOffset, hu]
        · intro hnil
          rw [endOffset, hnil]
          rfl

theorem Inv.setTensorType (h : ctx.Inv) (hset : ctx.setTensorType name type = some ctx') :
    ctx'.Inv := by
  obtain ⟨infos, hinfos, rfl⟩ := Option.map_eq_some_iff.1 hset
  obtain ⟨hchain, hnames⟩ := setTypeIn_spec hinfos h.chained
  refine { h with names_nodup := ?_, infos_le := ?_, chained := hchain }
  · rw [hnames]
    exact h.names_nodup
  · have hlen := congrArg List.length hnames
    rw [List.length_map, List.length_map] at hlen
    exact Nat.le_trans (Nat.le_of_eq hlen) h.infos_le

theorem Inv.call (h : ctx.Inv) (hcall : ctx.call c = some ctx') : ctx'.Inv := by
  cases c with
  | setVal key type value => exact h.setVal hcall
  | setArrData key type values => exact h.setArrData hcall
  | setArrStr key values => exact h.setValue hcall
  | setKv src => exact run_preserves Inv.setKvPair h hcall
  | removeKey key =>
    cases hcall
    exact h.removeKey key
  | addTensor t => exact h.addTensor hcall
  | setTensorType name type => exact h.setTensorType hcall

theorem inv_empty : ggufInitEmpty.Inv where
  alignment := rfl
  keys_nodup := List.nodup_nil
  pairs := List.forall_mem_nil _
  kvs_le := Nat.zero_le _
  names_nodup := List.nodup_nil
  infos_le := Nat.zero_le _
  chained := .nil

theorem inv_of_runCalls (h : runCalls calls = some ctx) : ctx.Inv :=
  run_preserves Inv.call inv_empty h

end WriterContext

end ActQuant.Gguf
