import ActQuant.Gguf.Writer
import ActQuant.Gguf.Extents

namespace ActQuant.Gguf
open ActQuant.Lib ActQuant.Quant ActQuant.Lib.Reader

/-- Memory for everything. -/
def allMemory : Memory := fun _ => true

section Values

theorem bits_lt (t : GgufType) (v : t.Val) : t.bits v < 256 ^ t.size := by
  cases t with
  | uint8 => exact UInt8.toNat_lt v
  | int8 => exact UInt8.toNat_lt _
  | uint16 => exact UInt16.toNat_lt v
  | int16 => exact UInt16.toNat_lt _
  | uint32 => exact UInt32.toNat_lt v
  | int32 => exact UInt32.toNat_lt _
  | float32 => exact UInt32.toNat_lt v
  | bool => exact Nat.lt_of_le_of_lt (Bool.toNat_le v) (by decide)
  | string => exact Nat.one_pos
  | uint64 => exact UInt64.toNat_lt v
  | int64 => exact UInt64.toNat_lt _
  | float64 => exact UInt64.toNat_lt v

theorem ofBits_bits (t : GgufType) (h : t ≠ .string) (v : t.Val) : t.ofBits (t.bits v) = v := by
  cases t with
  | uint8 => exact UInt8.ofNat_toNat
  | int8 => exact congrArg UInt8.toInt8 UInt8.ofNat_toNat
  | uint16 => exact UInt16.ofNat_toNat
  | int16 => exact congrArg UInt16.toInt16 UInt16.ofNat_toNat
  | uint32 => exact UInt32.ofNat_toNat
  | int32 => exact congrArg UInt32.toInt32 UInt32.ofNat_toNat
  | float32 => exact UInt32.ofNat_toNat
  | bool =>
    cases v with
    | false => rfl
    | true => rfl
  | string => exact (h rfl).elim
  | uint64 => exact UInt64.ofNat_toNat
  | int64 => exact congrArg UInt64.toInt64 UInt64.ofNat_toNat
  | float64 => exact UInt64.ofNat_toNat

theorem stringEnc_encodeStr (h : (encodeStr s).length < 2 ^ 64) :
    StringEnc allMemory (encodeStr s) s := by
  rw [length_encodeStr] at h
  exact ⟨rfl, by omega, rfl⟩

theorem valueEnc_encode (t : GgufType) (v : t.Val) (h : (t.encode v).length < 2 ^ 64) :
    ValueEnc allMemory t (t.encode v) v := by
  cases t with
  | string => exact stringEnc_encodeStr h
  | _ => exact ⟨_, ⟨rfl, bits_lt _ v⟩, (ofBits_bits _ (by decide) v).symm⟩

theorem many_flatMap {G : Bytes → α → Prop} {encode : α → Bytes} {as : List α}
    (h : ∀ a ∈ as, G (encode a) a) : Many G (as.flatMap encode) as := by
  induction as with
  | nil => exact .nil
  | cons a as ih =>
    rw [List.forall_mem_cons] at h
    exact .cons h.1 (ih h.2)

theorem length_le_flatMap {encode : α → Bytes} {as : List α} (h : a ∈ as) :
    (encode a).length ≤ (as.flatMap encode).length := by
  obtain ⟨before, after, rfl⟩ := List.append_of_mem h
  rw [List.flatMap_append, List.flatMap_cons, List.length_append, List.length_append]
  omega

theorem mul_length_le_flatMap {encode : α → Bytes} (h : ∀ a, k ≤ (encode a).length)
    (as : List α) : as.length * k ≤ (as.flatMap encode).length := by
  induction as with
  | nil =>
    rw [List.length_nil, Nat.zero_mul]
    exact Nat.zero_le _
  | cons a as ih =>
    have ha := h a
    rw [List.length_cons, List.flatMap_cons, List.length_append, Nat.succ_mul]
    omega

theorem length_encode_pos (t : GgufType) (v : t.Val) : 0 < (t.encode v).length := by
  rw [GgufType.length_encode]
  cases t with
  | string => exact Nat.lt_of_lt_of_le (by decide) (Nat.le_add_right 8 _)
  | _ => exact Nat.succ_pos _

theorem kvValueEnc_encodeValue (value : KvValue) (h : (encodeValue value).length < 2 ^ 64) :
    KvValueEnc allMemory (encodeValue value) value := by
  cases value with
  | scalar t v =>
    rw [encodeValue, List.length_append] at h
    exact .scalar (valueEnc_encode t v (by omega))
  | array t vs =>
    have hcount := mul_length_le_flatMap (length_encode_pos t) vs
    rw [encodeValue, List.length_append, List.length_append, List.length_append] at h
    refine .array rfl (by omega) (many_flatMap fun v hv => valueEnc_encode t v ?_)
    have hle : (t.encode v).length ≤ (vs.flatMap t.encode).length := length_le_flatMap hv
    omega

/-- The pairs of a writer are read one after the other. -/
theorem iter_encodeKv {before kvs : Kvs} (hpairs : ∀ kv ∈ kvs, SetPair kv)
    (hnodup : ((before ++ kvs).map Prod.fst).Nodup)
    (hlen : (kvs.flatMap encodeKv).length < 2 ^ 64) :
    Iter (KvStep allMemory) kvs.length before (kvs.flatMap encodeKv) (before ++ kvs) := by
  induction kvs generalizing before with
  | nil =>
    rw [List.append_nil]
    exact .zero
  | cons kv kvs ih =>
    rw [List.forall_mem_cons] at hpairs
    rw [List.flatMap_cons, List.length_append, encodeKv, List.length_append] at hlen
    have hnew : kv.1 ∉ before.map Prod.fst := by
      rw [List.map_append, List.nodup_append] at hnodup
      intro hmem
      exact hnodup.2.2 kv.1 hmem kv.1 List.mem_cons_self rfl
    rw [List.append_cons] at hnodup ⊢
    refine .succ ⟨kv.1, kv.2, _, _, rfl, stringEnc_encodeStr (by omega), hnew,
      kvValueEnc_encodeValue kv.2 (by omega), hpairs.1.1, rfl⟩ (ih hpairs.2 hnodup (by omega))

end Values

section Infos

/-- What the reader asks of a tensor. -/
structure Admitted (t : TensorInfo) : Prop where
  few : FewElements t.ne0 t.ne1 t.ne2 t.ne3
  wholeBlocks : t.WholeBlocks

theorem all_number (type : GgmlType) : GgmlType.all[ggmlTypeNumber type]? = some type := by
  cases type <;> rfl

theorem ggmlTypeNumber_lt (type : GgmlType) : ggmlTypeNumber type < 2 ^ 32 := by
  cases type <;> decide

theorem nDims_cases (t : TensorInfo) :
    t.nDims = 4 ∨ t.nDims = 3 ∧ t.ne3 = 1 ∨ t.nDims = 2 ∧ t.ne3 = 1 ∧ t.ne2 = 1 ∨
      t.nDims = 1 ∧ t.ne3 = 1 ∧ t.ne2 = 1 ∧ t.ne1 = 1 := by
  have h1 := t.ne1_pos
  have h2 := t.ne2_pos
  have h3 := t.ne3_pos
  rw [TensorInfo.nDims]
  split
  · exact .inl rfl
  · split
    · exact .inr (.inl ⟨rfl, by omega⟩)
    · split
      · exact .inr (.inr (.inl ⟨rfl, by omega, by omega⟩))
      · exact .inr (.inr (.inr ⟨rfl, by omega, by omega, by omega⟩))

/-- A dimension that is written, and one that is left out. -/
theorem dimEnc_written (hj : j < nDims) (h : ne < 2 ^ 63) : DimEnc nDims j (leBytes 8 ne) ne := by
  rw [DimEnc, if_pos hj]
  exact ⟨rfl, h⟩

theorem dimEnc_left (hj : nDims ≤ j) (h : ne = 1) : DimEnc nDims j [] ne := by
  rw [DimEnc, if_neg (Nat.not_lt_of_le hj)]
  exact ⟨rfl, h⟩

def TensorInfo.shape (t : TensorInfo) : Shape :=
  ⟨t.ne0, t.ne1, t.ne2, t.ne3, t.ne1_pos, t.ne2_pos, t.ne3_pos⟩

theorem shapeEnc_encodeDims {t : GgmlTensor} (h : Admitted t.info) :
    ShapeEnc t.info.nDims (encodeDims t.info) t.info.shape := by
  obtain ⟨hlt0, hlt1, hlt2, hlt3⟩ := t.ne_lt
  obtain hn | ⟨hn, h3⟩ | ⟨hn, h3, h2⟩ | ⟨hn, h3, h2, h1⟩ := nDims_cases t.info
  case inl =>
    rw [encodeDims, hn]
    exact ⟨_, _, _, leBytes 8 t.info.ne3 ++ [], rfl, dimEnc_written (by decide) hlt0,
      dimEnc_written (by decide) hlt1, dimEnc_written (by decide) hlt2, by
        rw [List.append_nil]
        exact dimEnc_written (by decide) hlt3, h.few⟩
  case inr.inl =>
    rw [encodeDims, hn]
    exact ⟨_, _, _, [], rfl, dimEnc_written (by decide) hlt0, dimEnc_written (by decide) hlt1,
      dimEnc_written (by decide) hlt2, dimEnc_left (by decide) h3, h.few⟩
  case inr.inr.inl =>
    rw [encodeDims, hn]
    exact ⟨_, _, [], [], rfl, dimEnc_written (by decide) hlt0, dimEnc_written (by decide) hlt1,
      dimEnc_left (by decide) h2, dimEnc_left (by decide) h3, h.few⟩
  case inr.inr.inr =>
    rw [encodeDims, hn]
    exact ⟨_, [], [], [], rfl, dimEnc_written (by decide) hlt0, dimEnc_left (by decide) h1,
      dimEnc_left (by decide) h2, dimEnc_left (by decide) h3, h.few⟩

theorem nDims_pos (t : TensorInfo) : 0 < t.nDims := by
  obtain hn | ⟨hn, _⟩ | ⟨hn, _⟩ | ⟨hn, _⟩ := nDims_cases t
  all_goals
    rw [hn]
    decide

theorem nDims_le (t : TensorInfo) : t.nDims ≤ maxDims := by
  obtain hn | ⟨hn, _⟩ | ⟨hn, _⟩ | ⟨hn, _⟩ := nDims_cases t
  all_goals
    rw [hn]
    decide

theorem length_encodeDims (t : TensorInfo) : (encodeDims t).length = 8 * t.nDims := by
  obtain hn | ⟨hn, _⟩ | ⟨hn, _⟩ | ⟨hn, _⟩ := nDims_cases t
  all_goals
    rw [encodeDims, hn]
    rfl

theorem length_encodeInfo (t : TensorInfo) (offset : Nat) :
    (encodeInfo t offset).length = t.infoBytes := by
  rw [encodeInfo, TensorInfo.infoBytes]
  simp only [List.length_append, length_encodeStr, length_leBytes, length_encodeDims]
  omega

def readInfos (infos : WriterInfos) : Infos := infos.map fun t => (t.1.info, t.2)

theorem infoStep_encodeInfo {t : GgmlTensor} {before : Infos} (h : Admitted t.info)
    (hnew : t.info.name ∉ before.map (·.1.name)) (hoffset : offset < 2 ^ 64) :
    InfoStep allMemory before (encodeInfo t.info offset) (before ++ [(t.info, offset)]) := by
  have hname : cStr t.info.name = t.info.name := cStr_eq_self t.name_nulFree
  have hlen : t.info.name.length < maxName := t.name_lt
  refine ⟨t.info.name, t.info.nDims, t.info.shape, t.info.type, offset, _, _, _, rfl,
    ⟨rfl, Nat.lt_trans hlen (by decide), rfl⟩, hlen, ?_, nDims_le t.info, shapeEnc_encodeDims h,
    ⟨_, rfl, ggmlTypeNumber_lt _, all_number _, Nat.pos_iff_ne_zero.1 h.wholeBlocks.1,
      Nat.mod_eq_zero_of_dvd h.wholeBlocks.2⟩, hoffset, ?_⟩
  · rwa [hname]
  · rw [hname]
    rfl

/-- The infos of a writer are read one after the other. -/
theorem iter_encodeInfo {before : Infos} {infos : WriterInfos}
    (hadmitted : ∀ t ∈ infos, Admitted t.1.info) (hoffsets : ∀ t ∈ infos, t.2 < 2 ^ 64)
    (hnodup : ((before ++ readInfos infos).map (·.1.name)).Nodup) :
    Iter (InfoStep allMemory) infos.length before (infos.flatMap fun t => encodeInfo t.1.info t.2)
      (before ++ readInfos infos) := by
  induction infos generalizing before with
  | nil =>
    rw [readInfos, List.map_nil, List.append_nil]
    exact .zero
  | cons t infos ih =>
    rw [List.forall_mem_cons] at hadmitted hoffsets
    have hnew : t.1.info.name ∉ before.map (·.1.name) := by
      rw [List.map_append, List.nodup_append] at hnodup
      intro hmem
      exact hnodup.2.2 _ hmem t.1.info.name List.mem_cons_self rfl
    rw [readInfos, List.map_cons, List.append_cons] at hnodup ⊢
    exact .succ (infoStep_encodeInfo hadmitted.1 hnew hoffsets.1)
      (ih hadmitted.2 hoffsets.2 hnodup)

end Infos

end ActQuant.Gguf
