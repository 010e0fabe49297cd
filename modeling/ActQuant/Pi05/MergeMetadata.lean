import ActQuant.Gguf.PyGguf
import ActQuant.Lib.Lists

namespace ActQuant.Pi05
open ActQuant.Lib ActQuant.Quant ActQuant.Gguf

def llmSkipDefault : List (List Char) :=
  ["token_embd.weight".toList, "output.weight".toList, "output_norm.weight".toList]

def llmToplevelRemap : Dict (List Char) (List Char) :=
  [("token_embd.weight".toList, "embed.weight".toList)]

def llmSkipNorms : List String := [".attn_norm.weight", ".ffn_norm.weight"]

def llmNameToPali (name : List Char) (useLlmEmbed : Bool) : Option (List Char) :=
  let skip := if useLlmEmbed then llmSkipDefault.filter (· ≠ "token_embd.weight".toList)
    else llmSkipDefault
  if skip.contains name then none
  else if useLlmEmbed ∧ (llmToplevelRemap.lookup name).isSome then llmToplevelRemap.lookup name
  else if !startsWith "blk." name then none
  else if llmSkipNorms.any fun s => endsWith s name then none
  else some ("pali.".toList ++ replace ".attn_output.weight" ".attn_o.weight" name)

def paliNameToLlm (name : List Char) : Option (List Char) :=
  if !startsWith "pali.blk." name then none
  else some (replace ".attn_o.weight" ".attn_output.weight" (name.drop 5))

/-- `_copy_field` under the types of numbers and strings. -/
def copyScalar (kvs : WriterKvs) (key : List Char) (type : GgufType) (part : Part) : WriterKvs :=
  match type, part.objects with
  | .string, _ =>
    match decodeUtf8 part.bytes with
    | some val => addString kvs key val
    | none => kvs
  | .bool, o :: _ => kvs.set key (.scalar .bool (pyBool o))
  | type, o :: _ => kvs.set key (.scalar type o)
  | _, [] => kvs

/-- `_copy_field` under `ARRAY`: the items are those of the last part, but for strings, which are
all the parts behind the key that can be decoded. -/
def copyArray (kvs : WriterKvs) (key : List Char) (etype : ValueType) (part : Part)
    (parts : List Part) : WriterKvs :=
  match etype with
  | .plain .float32 => addArray kvs key (part.objects.map pyFloat)
  | .plain .int32 | .plain .uint32 => addArray kvs key (part.objects.map pyInt)
  | .plain .string =>
    addArray kvs key (((parts.drop 2).filterMap fun p => decodeUtf8 p.bytes).map .str)
  | _ => addArray kvs key part.objects

/-- `_copy_field`; what it raises is caught around it. -/
def copyField (kvs : WriterKvs) (key : List Char) (field : ReaderField) : WriterKvs :=
  match field.types, field.parts.getLast? with
  | .plain type :: _, some part => copyScalar kvs key type part
  | .array :: etype :: _, some part => copyArray kvs key etype part field.parts
  | _, _ => kvs

def quantLlmKey : List Char := "pi05.quant_llm".toList

/-- `copy_kv_metadata`; no quantisation type is the empty text. -/
def copyKvMetadata (fields : Fields) (kvs : WriterKvs) (quantType : List Char) : WriterKvs :=
  fields.foldl (fun kvs field =>
    if field.1 = quantLlmKey ∧ quantType ≠ [] then addString kvs field.1 quantType
    else copyField kvs field.1 field.2) kvs

/-- The tensors of the LLM file under the names they have in the merged one. -/
def llmTensors (tensors : List ReaderTensor) (useLlmEmbed : Bool) :
    Dict (List Char) ReaderTensor :=
  tensors.foldl (fun d t =>
    match llmNameToPali t.name useLlmEmbed with
    | some paliName => d.set paliName t
    | none => d) []

def mergeTensors (base : List ReaderTensor) (patches : Dict (List Char) ReaderTensor) :
    Option (List WriterTensor) :=
  base.foldlM (fun tensors t =>
    match patches.lookup t.name with
    | some lt => addTensor tensors t.name lt
    | none => addTensor tensors t.name t) []

def merge (base llm : GgufFile) (quantType : List Char) (useLlmEmbed : Bool) :
    Option WrittenFile := do
  let (fields, baseTensors) ← ggufReader base
  let (_, llmFileTensors) ← ggufReader llm
  let kvs := copyKvMetadata fields (newWriter "pi05") quantType
  let tensors ← mergeTensors baseTensors (llmTensors llmFileTensors useLlmEmbed)
  let kvData ← writeKvData kvs
  some ⟨kvData, writeTiData 0 tensors, writeTensors tensors⟩

/-- What went through when a file was written. -/
structure Merged (base llm : GgufFile) (quantType : List Char) (useLlmEmbed : Bool)
    (out : WrittenFile) where
  fields : Fields
  baseTensors : List ReaderTensor
  llmFields : Fields
  llmFileTensors : List ReaderTensor
  tensors : List WriterTensor
  base_read : ggufReader base = some (fields, baseTensors)
  llm_read : ggufReader llm = some (llmFields, llmFileTensors)
  merged : mergeTensors baseTensors (llmTensors llmFileTensors useLlmEmbed) = some tensors
  kvs_written : writeKvData (copyKvMetadata fields (newWriter "pi05") quantType) = some out.kvs
  infos_eq : out.infos = writeTiData 0 tensors
  data_eq : out.data = writeTensors tensors

theorem nonempty_merged (h : merge base llm quantType useLlmEmbed = some out) :
    Nonempty (Merged base llm quantType useLlmEmbed out) := by
  simp only [merge, Option.bind_eq_bind, Option.bind_eq_some_iff, Option.some.injEq,
    Prod.exists] at h
  obtain ⟨fields, baseTensors, hbase, llmFields, llmFileTensors, hllm, tensors, hts, kvData, hkv,
    rfl⟩ := h
  exact ⟨⟨fields, baseTensors, llmFields, llmFileTensors, tensors, hbase, hllm, hts, hkv, rfl,
    rfl⟩⟩

end ActQuant.Pi05

namespace ActQuant.Pi05
open ActQuant.Lib ActQuant.Gguf

/-- The metadata keys the tool sets by itself. -/
def toolKeys (quantType : List Char) : List Bytes :=
  encodeUtf8 generalArchitecture :: if quantType = [] then [] else [encodeUtf8 quantLlmKey]

/-- Beside the keys of the tool the pairs are those of the base, and none of them is one of the
fields that the reader makes out of the head of a file. -/
structure MetadataPreserved (base out : List (Bytes × FileValue)) (tool : List Bytes) : Prop where
  pairs : ∀ kv : Bytes × FileValue, kv.1 ∉ tool → (kv ∈ out ↔ kv ∈ base)
  noBookkeeping : ∀ field ∈ [versionField, tensorCountField, kvCountField],
    encodeUtf8 field ∉ out.map Prod.fst

section Keys
variable {kvs : WriterKvs} {k : List Char}

theorem mem_keys_addString (h : k ∈ kvs.map Prod.fst) (key val : List Char) :
    k ∈ (addString kvs key val).map Prod.fst := by
  rw [addString]
  split
  · exact h
  · exact Dict.mem_keys_set_of_mem h _ _

theorem mem_keys_addArray (h : k ∈ kvs.map Prod.fst) (key : List Char) (val : List PyObj) :
    k ∈ (addArray kvs key val).map Prod.fst := by
  cases val with
  | nil => exact h
  | cons v val => exact Dict.mem_keys_set_of_mem h _ _

theorem mem_keys_copyScalar (h : k ∈ kvs.map Prod.fst) (key : List Char) (type : GgufType)
    (part : Part) : k ∈ (copyScalar kvs key type part).map Prod.fst := by
  unfold copyScalar
  split
  case h_1 =>
    split
    · exact mem_keys_addString h _ _
    · exact h
  case h_4 => exact h
  all_goals exact Dict.mem_keys_set_of_mem h _ _

theorem mem_keys_copyArray (h : k ∈ kvs.map Prod.fst) (key : List Char) (etype : ValueType)
    (part : Part) (parts : List Part) :
    k ∈ (copyArray kvs key etype part parts).map Prod.fst := by
  unfold copyArray
  split <;> exact mem_keys_addArray h _ _

theorem mem_keys_copyField (h : k ∈ kvs.map Prod.fst) (key : List Char) (field : ReaderField) :
    k ∈ (copyField kvs key field).map Prod.fst := by
  unfold copyField
  split
  · exact mem_keys_copyScalar h _ _ _
  · exact mem_keys_copyArray h _ _ _ _
  · exact h

theorem mem_keys_copyKvMetadata (fields : Fields) (quantType : List Char)
    (h : k ∈ kvs.map Prod.fst) : k ∈ (copyKvMetadata fields kvs quantType).map Prod.fst := by
  induction fields generalizing kvs with
  | nil => exact h
  | cons field fields ih =>
    apply ih
    dsimp only
    split
    · exact mem_keys_addString h _ _
    · exact mem_keys_copyField h _ _

end Keys

/-- A field that is there under a name stays there when others are pushed, unless the name is one
that a duplicate may be given. -/
theorem mem_pushField {fields : Fields} (h : e ∈ fields) (hname : '_' ∉ e.1) (name : List Char)
    (field : ReaderField) : e ∈ pushField fields name field := by
  rw [pushField]
  split
  case isTrue =>
    apply Dict.mem_set_of_ne h
    intro heq
    rw [heq] at hname
    exact hname (List.mem_append_right _ (.head _))
  case isFalse hfresh =>
    apply Dict.mem_set_of_ne h
    rintro rfl
    exact hfresh (List.contains_iff_mem.2 (List.mem_map_of_mem h))

theorem mem_buildFields {fields fields' : Fields}
    (hread : buildFields offs kvs fields = some fields') (h : e ∈ fields) (hname : '_' ∉ e.1) :
    e ∈ fields' := by
  induction kvs generalizing offs fields with
  | nil =>
    cases hread
    exact h
  | cons kv kvs ih =>
    rw [buildFields, Option.bind_eq_bind, Option.bind_eq_some_iff] at hread
    obtain ⟨name, -, hread⟩ := hread
    exact ih hread (mem_pushField h hname _ _)

def versionReaderField (f : GgufFile) : ReaderField :=
  ⟨4, [⟨.uint32, [f.version]⟩], [.plain .uint32]⟩

theorem mem_readerFields (h : readerFields f = some fields) :
    (versionField, versionReaderField f) ∈ fields :=
  mem_buildFields h (.head _) (by decide : '_' ∉ versionField)

/-- The copied metadata have the version of the base's head among them. -/
theorem version_mem_copyKvMetadata (h : readerFields f = some fields) (kvs : WriterKvs)
    (quantType : List Char) :
    versionField ∈ (copyKvMetadata fields kvs quantType).map Prod.fst := by
  obtain ⟨before, after, rfl⟩ := List.append_of_mem (mem_readerFields h)
  rw [copyKvMetadata, List.foldl_append, List.foldl_cons]
  apply mem_keys_copyKvMetadata
  have hne : versionField ≠ quantLlmKey := by decide
  rw [if_neg fun hkey => hne hkey.1]
  exact Dict.mem_keys_set _ _ _

theorem keys_writeKvData (h : writeKvData kvs = some out) :
    out.map Prod.fst = kvs.map fun kv => encodeUtf8 kv.1 := by
  rw [writeKvData] at h
  induction kvs generalizing out with
  | nil =>
    cases h
    rfl
  | cons kv kvs ih =>
    obtain ⟨y, ys, hy, hys, rfl⟩ := mapM_cons_eq_some h
    obtain ⟨value, -, rfl⟩ := Option.map_eq_some_iff.1 hy
    rw [List.map_cons, List.map_cons, ih hys]

theorem metadata_never_preserved (base llm : GgufFile) (quantType : List Char)
    (useLlmEmbed : Bool) :
    ¬ ∃ out, merge base llm quantType useLlmEmbed = some out ∧
      MetadataPreserved base.kvs out.kvs (toolKeys quantType) := by
  rintro ⟨out, hmerge, hpres⟩
  obtain ⟨m⟩ := nonempty_merged hmerge
  have hversion := version_mem_copyKvMetadata (of_ggufReader m.base_read).1 (newWriter "pi05")
    quantType
  apply hpres.noBookkeeping versionField (.head _)
  rw [keys_writeKvData m.kvs_written, List.mem_map]
  obtain ⟨kv, hkv, hkey⟩ := List.mem_map.1 hversion
  exact ⟨kv, hkv, congrArg encodeUtf8 hkey⟩

/-- An array of the singles 1 and 2, and what is left of it. -/
def pairArray : FileValue := .array (.flat .float32 [(0x3f800000 : UInt32), (0x40000000 : UInt32)])
def lastArray : FileValue := .array (.flat .float32 [(0x40000000 : UInt32)])

def pairBase : GgufFile := ⟨3, [(encodeUtf8 ['a'], pairArray)], []⟩
def emptyLlm : GgufFile := ⟨3, [], []⟩

def pairMerged : WrittenFile where
  kvs := [(encodeUtf8 generalArchitecture, .scalar .string (encodeUtf8 "pi05".toList)),
    (encodeUtf8 versionField, .scalar .uint32 (3 : UInt32)),
    (encodeUtf8 tensorCountField, .scalar .uint64 (0 : UInt64)),
    (encodeUtf8 kvCountField, .scalar .uint64 (1 : UInt64)),
    (encodeUtf8 ['a'], lastArray)]
  infos := []
  data := []

theorem merge_pairBase : merge pairBase emptyLlm [] false = some pairMerged := by
  have hfields : readerFields pairBase =
      some (bookkeeping pairBase ++ [(['a'], kvField 24 (encodeUtf8 ['a']) pairArray)]) := by
    rw [readerFields, pairBase, buildFields, decodeUtf8_encodeUtf8]
    rfl
  have hread : ggufReader pairBase =
      some (bookkeeping pairBase ++ [(['a'], kvField 24 (encodeUtf8 ['a']) pairArray)], []) := by
    rw [ggufReader, hfields]
    rfl
  rw [merge, hread]
  rfl

theorem metadata_lost : ∃ out, merge pairBase emptyLlm [] false = some out ∧
    ¬ MetadataPreserved pairBase.kvs out.kvs (toolKeys []) := by
  refine ⟨pairMerged, merge_pairBase, ?_⟩
  intro hpres
  have hkey : encodeUtf8 ['a'] ∉ toolKeys [] := by decide
  have hmem := (hpres.pairs (encodeUtf8 ['a'], pairArray) hkey).2 (.head _)
  simp only [pairMerged, List.mem_cons, Prod.mk.injEq, List.not_mem_nil, or_false] at hmem
  rcases hmem with ⟨-, h⟩ | ⟨-, h⟩ | ⟨-, h⟩ | ⟨-, h⟩ | ⟨-, h⟩ <;> cases h

end ActQuant.Pi05
