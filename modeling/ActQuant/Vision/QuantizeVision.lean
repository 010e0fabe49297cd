import ActQuant.Gguf.Container
import ActQuant.Lib.Chars
import ActQuant.Lib.Lists
import ActQuant.Quant.ParallelRows

namespace ActQuant.Vision
open ActQuant.Lib ActQuant.Quant ActQuant.Gguf ActQuant.Quant.ParallelRows

structure QuantType where
  name : String
  type : GgmlType
  blockSize : Nat
  deriving DecidableEq

/-- `QUANT_TYPES`. -/
def quantTypes : List QuantType :=
  [⟨"Q4_0", .q4_0, 32⟩, ⟨"Q4_1", .q4_1, 32⟩, ⟨"Q5_0", .q5_0, 32⟩, ⟨"Q5_1", .q5_1, 32⟩,
   ⟨"Q8_0", .q8_0, 32⟩, ⟨"Q2_K", .q2_K, 256⟩, ⟨"Q3_K_S", .q3_K, 256⟩, ⟨"Q3_K_M", .q3_K, 256⟩,
   ⟨"Q3_K_L", .q3_K, 256⟩, ⟨"Q4_K_S", .q4_K, 256⟩, ⟨"Q4_K_M", .q4_K, 256⟩,
   ⟨"Q5_K_S", .q5_K, 256⟩, ⟨"Q5_K_M", .q5_K, 256⟩, ⟨"Q6_K", .q6_K, 256⟩,
   ⟨"F16", .f16, 1⟩, ⟨"F32", .f32, 1⟩]

/-- `find_quant_type`, whose names compare without case. -/
def findQuantType (name : String) : Option QuantType :=
  quantTypes.find? fun q => q.name.toList.map Char.toLower = name.toList.map Char.toLower

theorem mem_of_findQuantType (name : String) {q : QuantType} (h : findQuantType name = some q) :
    q ∈ quantTypes :=
  List.mem_of_find?_eq_some h

def skipPatterns : List String :=
  ["patch_embd", "position_embd", "class_embd", "reg_embd", "ln1", "ln2", "ls1", "ls2", ".bias"]

def shouldSkipTensor (name : Bytes) : Bool :=
  skipPatterns.any fun pattern => search (· == ·) (bytes pattern) name

def canQuantizeShape (t : TensorInfo) (blockSize : Nat) : Bool :=
  2 ≤ t.nDims && t.ne0 % blockSize = 0

def calcPaddedDim (dim blockSize : Nat) : Nat :=
  if blockSize ≤ 1 then dim
  else if dim % blockSize = 0 then dim
  else (dim + blockSize - 1) / blockSize * blockSize

/-- Rows of length `ne0`, each filled up to `padded` values. -/
def padRows (fill : α) (src : List α) (ne0 ne1 padded : Nat) : List α :=
  (List.range ne1).flatMap fun i1 =>
    slice src (i1 * ne0) (i1 * ne0 + ne0) ++ List.replicate (padded - ne0) fill

/-- A tensor of the input, with its elements if they are of 32 or 16 bits (as `float`), and
whatever its data is made of otherwise. -/
structure Tensor (α : Type) extends TensorInfo where
  data : List α
  name_nulFree : NulFree name
  wholeBlocks : toTensorInfo.WholeBlocks
  data_length : type = .f32 ∨ type = .f16 → data.length = ne0 * toTensorInfo.rows

/-- What `gguf_init_from_file` accepts. -/
structure GgufFile (α : Type) where
  kvs : Kvs
  tensors : List (Tensor α)
  keys_nodup : (kvs.map Prod.fst).Nodup
  keys_ne_nil : ∀ kv ∈ kvs, kv.1 ≠ []
  names_nodup : (tensors.map (·.name)).Nodup
  aligned : (alignment? kvs).isSome

/-- An entry of the imatrix, already divided by its counts. -/
structure ImatrixEntry (α : Type) where
  data : List α
  perWeight : Bool
  ne0 : Nat
  ne1 : Nat
  data_length : data.length = ne0 * ne1

/-- The arguments of a run, and how a row is encoded in a type. -/
structure Settings (α Enc : Type) where
  quantType : QuantType
  quantType_mem : quantType ∈ quantTypes
  enablePadding : Bool
  imatrixMap : List (Bytes × ImatrixEntry α)
  quantizeRow : GgmlType → List α → Option (List α) → Enc

/-- What the loop decides for a tensor. -/
structure Plan where
  typeOut : GgmlType
  doQuantize : Bool
  needsPadding : Bool
  paddedNe0 : Nat

/-- The data of a tensor of the output: as it was, or by rows, of which some may never have
been written. -/
inductive Section (α Enc : Type) where
  | kept (data : List α)
  | rows (rows : List (Option Enc))

/-- `TensorInfo` of the tool; `originalNe0` is 0 where nothing was padded. -/
structure OutTensor (α Enc : Type) where
  info : TensorInfo
  originalNe0 : Nat
  data : Section α Enc

structure Output (α Enc : Type) where
  kvs : Kvs
  tensors : List (OutTensor α Enc)

variable {α Enc : Type}

def plan (s : Settings α Enc) (t : TensorInfo) : Plan :=
  if !shouldSkipTensor t.name && (t.type = .f32 || t.type = .f16) then
    if canQuantizeShape t s.quantType.blockSize then ⟨s.quantType.type, true, false, t.ne0⟩
    else if s.enablePadding && 2 ≤ t.nDims && s.quantType.blockSize < t.ne0 then
      let paddedNe0 := calcPaddedDim t.ne0 s.quantType.blockSize
      if paddedNe0 ≠ t.ne0 then ⟨s.quantType.type, true, true, paddedNe0⟩
      else ⟨t.type, false, false, paddedNe0⟩
    else ⟨t.type, false, false, t.ne0⟩
  else ⟨t.type, false, false, t.ne0⟩

/-- The branch that encodes a tensor anew. -/
def reencodes (s : Settings α Enc) (t : TensorInfo) : Bool :=
  (plan s t).doQuantize && (plan s t).typeOut ≠ t.type

def isPadded (s : Settings α Enc) (t : TensorInfo) : Bool := (plan s t).needsPadding

/-- The importance handed to the encoder, padded with ones, and whether it is per weight. -/
def imatrixFor [One α] (s : Settings α Enc) (t : TensorInfo) : Option (List α) × Bool :=
  match s.imatrixMap.lookup t.name with
  | none => (none, false)
  | some ie =>
    let padded := (plan s t).paddedNe0
    if ie.perWeight ∧ ie.ne0 = t.ne0 ∧ ie.ne1 = t.ne1 then
      (some (if isPadded s t then padRows 1 ie.data t.ne0 t.ne1 padded else ie.data), true)
    else if ¬ ie.perWeight ∧ ie.data.length = t.ne0 then
      (some (if isPadded s t then padRows 1 ie.data t.ne0 1 padded else ie.data), false)
    else (none, false)

/-- The call that encodes a tensor, whose rows are those of its first slice. -/
def quantizeJob [Zero α] [One α] (s : Settings α Enc) (t : Tensor α) : Job α α Enc :=
  let p := plan s t.toTensorInfo
  { f32Data :=
      if isPadded s t.toTensorInfo then padRows 0 t.data t.ne0 t.ne1 p.paddedNe0 else t.data
    imatrix := (imatrixFor s t.toTensorInfo).1
    imatrixIsPerWeight := (imatrixFor s t.toTensorInfo).2
    nrows := t.ne1
    nPerRow := p.paddedNe0
    rowSize := p.typeOut.traits.typeSize * p.paddedNe0 / p.typeOut.blckSize
    quantizeRow := s.quantizeRow p.typeOut
    validRow _ := true }

/-- The rows written, none where `ggml_quantize_chunk` divides by an empty row. -/
def quantizeTensorWithImatrix (J : Job α β Enc) : Option (NewData Enc) :=
  if J.nPerRow = 0 then none
  else if J.imatrixIsPerWeight then
    some ((List.range J.nrows).flatMap fun row =>
      ggmlQuantizeChunk J (row * J.nPerRow) 1 (J.imatrix.map (·.drop (row * J.nPerRow))))
  else some (ggmlQuantizeChunk J 0 J.nrows J.imatrix)

/-- One turn of the loop over the tensors. The output has room for all the rows of a tensor. -/
def processTensor [Zero α] [One α] (s : Settings α Enc) (t : Tensor α) :
    Option (OutTensor α Enc) :=
  let p := plan s t.toTensorInfo
  if reencodes s t.toTensorInfo then
    (quantizeTensorWithImatrix (quantizeJob s t)).map fun newData =>
      { info := { t.toTensorInfo with type := p.typeOut, ne0 := p.paddedNe0 }
        originalNe0 := if isPadded s t.toTensorInfo then t.ne0 else 0
        data := .rows ((List.range t.rows).map fun row => newData.lookup row) }
  else some ⟨t.toTensorInfo, 0, .kept t.data⟩

/-- A count put into an `int`. -/
def toInt (n : Nat) : Int :=
  if n % 2 ^ 32 < 2 ^ 31 then n % 2 ^ 32 else n % 2 ^ 32 - 2 ^ 32

/-- The value that is set for a pair, if its type has a case; none where the length of an array
becomes negative and the copy cannot be allocated. -/
def copiedValue : KvValue → Option (Option KvValue)
  | .scalar .string v => some (some (.scalar .string (cStr v)))
  | .scalar .uint64 _ | .scalar .int64 _ | .scalar .float64 _ => some none
  | .scalar type v => some (some (.scalar type v))
  | .array .float32 vs => arrayCopy .float32 vs
  | .array .int32 vs => arrayCopy .int32 vs
  | .array _ _ => some none
where
  arrayCopy (type : GgufType) (vs : List type.Val) : Option (Option KvValue) :=
    let arrN := toInt vs.length
    if arrN < 0 then none else some (some (.array type (vs.take arrN.toNat)))

def copyKv (kvs : Kvs) (kv : Bytes × KvValue) : Option Kvs :=
  match copiedValue kv.2 with
  | none => none
  | some none => some kvs
  | some (some value) => ggufSet kvs kv.1 value

def originalNe0Key (name : Bytes) : Bytes := bytes "quantize.original_ne0." ++ name

def paddedCountKey : Bytes := bytes "quantize.padded_tensor_count"

/-- The pairs that say what was padded. -/
def paddingKvs (padded : List (Bytes × Nat)) : Kvs :=
  if padded.length > 0 then
    (paddedCountKey, .scalar .uint32 (UInt32.ofNat padded.length)) ::
      padded.map fun t => (originalNe0Key t.1, .scalar .uint32 (UInt32.ofNat t.2))
  else []

/-- `main` once the input is open, none where it is cut short. -/
def quantizeVision [Zero α] [One α] (s : Settings α Enc) (input : GgufFile α) :
    Option (Output α Enc) :=
  let nTensors := toInt input.tensors.length
  let nKv := toInt input.kvs.length
  ((input.tensors.take nTensors.toNat).mapM (processTensor s)).bind fun tensors =>
    let padded := (tensors.filter (0 < ·.originalNe0)).map fun t => (t.info.name, t.originalNe0)
    ((input.kvs.take nKv.toNat).foldlM copyKv []).bind fun kvs =>
      ((paddingKvs padded).foldlM (fun kvs kv => ggufSet kvs kv.1 kv.2) kvs).map fun kvs =>
        ⟨kvs, tensors⟩

/-- A value that has a case of its own and that the case copies whole. -/
def Carried : KvValue → Prop
  | .scalar .string v => NulFree v
  | .scalar .uint64 _ | .scalar .int64 _ | .scalar .float64 _ => False
  | .scalar _ _ => True
  | .array .float32 vs | .array .int32 vs => vs.length < 2 ^ 31
  | .array _ _ => False

/-- An array that is copied has a length that is no negative `int`. -/
def Counted : KvValue → Prop
  | .array .float32 vs | .array .int32 vs => vs.length % 2 ^ 32 < 2 ^ 31
  | _ => True

section Values

theorem toInt_neg_iff : toInt n < 0 ↔ ¬ n % 2 ^ 32 < 2 ^ 31 := by
  rw [toInt]
  split_ifs <;> omega

theorem le_toNat_toInt : n ≤ (toInt n).toNat ↔ n < 2 ^ 31 := by
  rw [toInt]
  split_ifs <;> omega

theorem take_toInt (xs : List α) : xs.take (toInt xs.length).toNat = xs ↔ xs.length < 2 ^ 31 := by
  rw [List.take_eq_self_iff, le_toNat_toInt]

theorem arrayCopy_eq_none_iff {type : GgufType} (vs : List type.Val) :
    copiedValue.arrayCopy type vs = none ↔ ¬ vs.length % 2 ^ 32 < 2 ^ 31 := by
  rw [copiedValue.arrayCopy, ← toInt_neg_iff]
  simp only [ite_eq_left_iff, reduceCtorEq, imp_false, not_not]

theorem arrayCopy_eq_self_iff {type : GgufType} (vs : List type.Val) :
    copiedValue.arrayCopy type vs = some (some (.array type vs)) ↔ vs.length < 2 ^ 31 := by
  rw [copiedValue.arrayCopy, ← take_toInt]
  by_cases hneg : toInt vs.length < 0
  · have hlong : ¬ vs.length < 2 ^ 31 := by
      rw [toInt_neg_iff] at hneg
      omega
    rw [take_toInt]
    simp only [hneg, if_true, reduceCtorEq, hlong]
  · simp only [hneg, if_false, Option.some.injEq, KvValue.array.injEq, heq_eq_eq, true_and]

theorem copiedValue_eq_none_iff (v : KvValue) : copiedValue v = none ↔ ¬ Counted v := by
  cases v with
  | scalar type v => cases type <;> simp [copiedValue, Counted]
  | array type vs =>
    cases type with
    | float32 => exact arrayCopy_eq_none_iff vs
    | int32 => exact arrayCopy_eq_none_iff vs
    | _ => simp [copiedValue, Counted]

theorem copiedValue_eq_self_iff (v : KvValue) : copiedValue v = some (some v) ↔ Carried v := by
  cases v with
  | scalar type v =>
    cases type with
    | string =>
      have hinj (v w : GgufType.string.Val) :
          some (some (KvValue.scalar .string v)) = some (some (.scalar .string w)) ↔ v = w := by
        simp only [Option.some.injEq, KvValue.scalar.injEq, heq_eq_eq, true_and]
      exact (hinj _ _).trans cStr_eq_self_iff
    | _ => simp [copiedValue, Carried]
  | array type vs =>
    cases type with
    | float32 => exact arrayCopy_eq_self_iff vs
    | int32 => exact arrayCopy_eq_self_iff vs
    | _ => simp [copiedValue, Carried]

end Values

section Copies
variable {kvs : Kvs}

/-- The pair that is set for a pair of the input. -/
def copiedKv (kv : Bytes × KvValue) : Option (Bytes × KvValue) :=
  (copiedValue kv.2).join.map fun v => (cStr kv.1, v)

/-- A pair can be set under its key. -/
def Settable (key : Bytes) (value : KvValue) : Prop :=
  checkReservedKeys (cStr key) value = true ∧ cStr key ≠ []

def Copyable (kv : Bytes × KvValue) : Prop :=
  Counted kv.2 ∧ ∀ v, copiedValue kv.2 = some (some v) → Settable kv.1 v

theorem foldlM_copyKv {kvs' : Kvs} (d : Kvs) :
    kvs.foldlM copyKv d = some kvs' ↔
      (∀ kv ∈ kvs, Copyable kv) ∧ kvs' = (kvs.filterMap copiedKv).foldl Dict.put d := by
  rw [foldlM_guard (p := Copyable)
    (f := fun d kv => (copiedKv kv).elim d fun e => Dict.put d e), List.foldl_filterMap]
  · refine and_congr_right fun _ => Eq.congr_right (List.foldl_ext _ _ _ fun d kv _ => ?_)
    cases copiedKv kv <;> rfl
  · rintro d kv ⟨hcounted, hset⟩
    have hsome : copiedValue kv.2 ≠ none := by
      rw [Ne, copiedValue_eq_none_iff, not_not]
      exact hcounted
    rw [copyKv, copiedKv]
    cases hv : copiedValue kv.2 with
    | none => exact absurd hv hsome
    | some v =>
      cases v with
      | none => rfl
      | some v => exact if_pos (hset v hv)
  · intro d kv hno
    rw [copyKv]
    cases hv : copiedValue kv.2 with
    | none => rfl
    | some v =>
      have hcounted : Counted kv.2 := by
        by_contra hno
        rw [(copiedValue_eq_none_iff _).2 hno] at hv
        cases hv
      cases v with
      | none =>
        refine absurd ⟨hcounted, fun v hv' => ?_⟩ hno
        rw [hv] at hv'
        cases hv'
      | some v =>
        refine if_neg fun hset => hno ⟨hcounted, fun v' hv' => ?_⟩
        rw [hv] at hv'
        cases hv'
        exact hset

theorem copiedKv_of_carried {kv : Bytes × KvValue} (hkey : NulFree kv.1) (hv : Carried kv.2) :
    copiedKv kv = some kv := by
  rw [copiedKv, (copiedValue_eq_self_iff kv.2).2 hv, cStr_eq_self hkey]
  rfl

theorem copiedKv_key {kv e : Bytes × KvValue} (h : copiedKv kv = some e) : e.1 = cStr kv.1 := by
  obtain ⟨v, _, rfl⟩ := Option.map_eq_some_iff.1 h
  rfl

end Copies

section Padding
variable {padded : List (Bytes × Nat)}

theorem originalNe0Key_ne {key : Bytes}
    (h : key.take 22 ≠ bytes "quantize.original_ne0.") (name : Bytes) :
    originalNe0Key name ≠ key := by
  rintro rfl
  have hlen : (bytes "quantize.original_ne0.").length = 22 := by decide
  exact h (List.take_left' hlen)

theorem originalNe0Key_injective : Function.Injective originalNe0Key :=
  fun _ _ h => List.append_cancel_left h

theorem nulFree_originalNe0Key {name : Bytes} (h : NulFree name) :
    NulFree (originalNe0Key name) := by
  intro hmem
  rcases List.mem_append.1 hmem with hmem | hmem
  · exact absurd hmem (by decide)
  · exact h hmem

/-- The keys that say what was padded are of their own, and readable as strings. -/
structure PaddingKey (key : Bytes) : Prop where
  nulFree : NulFree key
  ne_nil : key ≠ []
  ne_alignment : key ≠ generalAlignment

theorem paddingKey_count : PaddingKey paddedCountKey :=
  ⟨by unfold NulFree; decide, by decide, by decide⟩

theorem paddingKey_of_mem (hnames : ∀ e ∈ padded, NulFree e.1)
    (h : kv ∈ paddingKvs padded) : PaddingKey kv.1 := by
  rw [paddingKvs] at h
  split_ifs at h
  · rcases List.mem_cons.1 h with rfl | h
    · exact paddingKey_count
    · obtain ⟨e, he, rfl⟩ := List.mem_map.1 h
      exact ⟨nulFree_originalNe0Key (hnames e he), originalNe0Key_ne (by decide) _,
        originalNe0Key_ne (by decide) _⟩
  · cases h

theorem nodup_paddingKvs (h : (padded.map Prod.fst).Nodup) :
    ((paddingKvs padded).map Prod.fst).Nodup := by
  rw [paddingKvs]
  split_ifs
  · rw [List.map_cons, List.map_map, List.nodup_cons]
    constructor
    · intro hmem
      obtain ⟨e, _, he⟩ := List.mem_map.1 hmem
      have hne : originalNe0Key e.1 ≠ paddedCountKey := originalNe0Key_ne (by decide) e.1
      exact hne he
    · have hcomp : padded.map (Prod.fst ∘ fun t => (originalNe0Key t.1,
          KvValue.scalar .uint32 (UInt32.ofNat t.2))) =
          (padded.map Prod.fst).map originalNe0Key := by
        rw [List.map_map]
        rfl
      rw [hcomp]
      exact h.map originalNe0Key_injective
  · exact List.nodup_nil

theorem settable_of_ne_alignment {key : Bytes} (h : NulFree key) (hnil : key ≠ [])
    (hne : key ≠ generalAlignment) (value : KvValue) : Settable key value := by
  rw [Settable, cStr_eq_self h]
  refine ⟨?_, hnil⟩
  unfold checkReservedKeys
  split
  · simp only [hne, ne_eq, not_false_eq_true, decide_true, Bool.true_or]
  · exact decide_eq_true hne

theorem ggufSet_eq {kv : Bytes × KvValue} (h : PaddingKey kv.1) (d : Kvs) :
    ggufSet d kv.1 kv.2 = some (d.put kv) := by
  have hset := settable_of_ne_alignment h.nulFree h.ne_nil h.ne_alignment kv.2
  rw [Settable] at hset
  rw [ggufSet, if_pos hset, cStr_eq_self h.nulFree]

theorem foldlM_paddingKvs (hnames : ∀ e ∈ padded, NulFree e.1) (d : Kvs) :
    (paddingKvs padded).foldlM (fun kvs kv => ggufSet kvs kv.1 kv.2) d =
      some ((paddingKvs padded).foldl Dict.put d) := by
  have hkeys := fun kv (h : kv ∈ paddingKvs padded) => paddingKey_of_mem hnames h
  generalize paddingKvs padded = es at hkeys ⊢
  induction es generalizing d with
  | nil => rfl
  | cons e es ih =>
    rw [List.foldlM_cons, ggufSet_eq (hkeys e (.head _)), Option.bind_eq_bind, Option.bind_some,
      ih _ fun kv hkv => hkeys kv (.tail _ hkv), List.foldl_cons]

end Padding

end ActQuant.Vision
