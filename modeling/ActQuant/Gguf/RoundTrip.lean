import ActQuant.Gguf.ReaderTotal
import ActQuant.Gguf.WriterEncode

namespace ActQuant.Gguf
open ActQuant.Lib ActQuant.Quant ActQuant.Lib.Reader

section Written
variable {alignment : Nat}

/-- The tensors of a writer, each with its start and its size. -/
def writerSections (infos : WriterInfos) : List Section := infos.map fun t => (t.2, t.1.nbytes)

def dataBytes (alignment : Nat) (infos : WriterInfos) : Nat :=
  (infos.map fun t => padTo alignment t.1.nbytes).sum

theorem laid_of_chained (h : Chained alignment start infos) (ha : 0 < alignment)
    (hsum : start + dataBytes alignment infos + alignment < 2 ^ 64) :
    Laid alignment start (writerSections infos) (start + dataBytes alignment infos) := by
  induction h with
  | nil => exact .nil
  | @cons t start infos hrest ih =>
    have hcons : dataBytes alignment ((t, start) :: infos) =
        padTo alignment t.nbytes + dataBytes alignment infos := List.sum_cons
    rw [hcons, ← Nat.add_assoc] at hsum ⊢
    have hle := le_padTo ha t.nbytes
    have hnext : t.nextOffset alignment start = start + padTo alignment t.nbytes := by
      rw [GgmlTensor.nextOffset, ggmlPad_eq_padTo (by omega)]
      exact Nat.mod_eq_of_lt (by omega)
    rw [hnext] at ih
    exact .cons (ih hsum)

theorem length_zeros (alignment n : Nat) : (zeros alignment n).length = padTo alignment n - n :=
  List.length_replicate

theorem length_padded_zeros (ha : 0 < alignment) (bs : Bytes) :
    (bs ++ zeros alignment bs.length).length = padTo alignment bs.length := by
  rw [List.length_append, length_zeros, Nat.add_sub_cancel' (le_padTo ha _)]

/-- The bytes of a tensor. -/
def GgmlTensor.bytes (t : GgmlTensor) : Option Bytes :=
  t.data.map fun data => (List.range t.nbytes).map data

theorem GgmlTensor.length_bytes {t : GgmlTensor} (h : t.bytes = some bs) :
    bs.length = t.nbytes := by
  obtain ⟨data, _, rfl⟩ := Option.map_eq_some_iff.1 h
  rw [List.length_map, List.length_range]

theorem writeTensorData_eq_some {ctx : WriterContext} {t : GgmlTensor × Nat} :
    ctx.writeTensorData offsetData written t = some out ↔
      written.length - offsetData = t.2 ∧ t.1.isContiguous = true ∧
        ∃ bs, t.1.bytes = some bs ∧
          out = written ++ bs ++ zeros ctx.alignment (written ++ bs).length := by
  rw [WriterContext.writeTensorData, GgmlTensor.bytes]
  constructor
  · intro h
    split at h
    case isTrue => cases h
    case isFalse hoffset =>
      split at h
      case isTrue => cases h
      case isFalse hcontiguous =>
        rw [not_not] at hoffset hcontiguous
        cases hdata : t.1.data with
        | none =>
          rw [hdata] at h
          cases h
        | some data =>
          rw [hdata] at h
          cases h
          exact ⟨hoffset, hcontiguous, _, rfl, rfl⟩
  · rintro ⟨hoffset, hcontiguous, bs, hbs, rfl⟩
    obtain ⟨data, hdata, rfl⟩ := Option.map_eq_some_iff.1 hbs
    rw [if_neg (not_not.2 hoffset), if_neg (not_not.2 hcontiguous), hdata]

/-- Tensors that lie where their offsets say are written, each in its place. -/
theorem foldlM_writeTensorData {ctx : WriterContext} {infos : WriterInfos}
    (ha : 0 < ctx.alignment) (hoff : ctx.alignment ∣ offsetData)
    (hlaid : Laid ctx.alignment start (writerSections infos) stop)
    (hcontiguous : ∀ t ∈ infos, t.1.isContiguous = true)
    (hdata : ∀ t ∈ infos, t.1.data.isSome = true)
    (hstart : ctx.alignment ∣ start) (hlen : written.length = offsetData + start) :
    ∃ out, infos.foldlM (ctx.writeTensorData offsetData) written = some out ∧
      written <+: out ∧ out.length = offsetData + stop ∧
      ∀ t ∈ infos, t.1.bytes = some ((out.drop (offsetData + t.2)).take t.1.nbytes) := by
  induction infos generalizing start written with
  | nil =>
    cases hlaid
    exact ⟨written, rfl, List.prefix_refl _, hlen, List.forall_mem_nil _⟩
  | cons t infos ih =>
    rw [List.forall_mem_cons] at hcontiguous hdata
    obtain ⟨t, offset⟩ := t
    cases hlaid with
    | cons hlaid =>
      obtain ⟨data, hsome⟩ := Option.isSome_iff_exists.1 hdata.1
      have hbytes : t.bytes = some ((List.range t.nbytes).map data) := by
        rw [GgmlTensor.bytes, hsome, Option.map_some]
      generalize (List.range t.nbytes).map data = bs at hbytes
      have hbs : bs.length = t.nbytes := GgmlTensor.length_bytes hbytes
      have hstep : ctx.writeTensorData offsetData written (t, offset) =
          some (written ++ bs ++ zeros ctx.alignment (written ++ bs).length) :=
        writeTensorData_eq_some.2 ⟨by omega, hcontiguous.1, bs, hbytes, rfl⟩
      have hnext : (written ++ bs ++ zeros ctx.alignment (written ++ bs).length).length =
          offsetData + (offset + padTo ctx.alignment t.nbytes) := by
        rw [length_padded_zeros ha, List.length_append, hlen, hbs,
          padTo_add ha (Nat.dvd_add hoff hstart), Nat.add_assoc]
      obtain ⟨out, hout, hpre, hlenOut, hall⟩ := ih hlaid hcontiguous.2 hdata.2
        (Nat.dvd_add hstart (dvd_padTo _ _)) hnext
      refine ⟨out, ?_, ?_, hlenOut, ?_⟩
      · rw [List.foldlM_cons, hstep]
        exact hout
      · refine List.IsPrefix.trans ?_ hpre
        rw [List.append_assoc]
        exact List.prefix_append _ _
      · refine List.forall_mem_cons.2 ⟨?_, hall⟩
        obtain ⟨rest, rfl⟩ := hpre
        rw [hbytes, ← hlen, List.append_assoc, List.append_assoc, List.drop_left, ← hbs,
          List.take_left]

end Written

section Room
variable {mem : Memory}

theorem ggmlNewTensors_of_room (h : curEnd + n * tensorOverhead ≤ pool) (hpool : pool < 2 ^ 64) :
    ggmlNewTensors pool n curEnd = .ok (curEnd + n * tensorOverhead) := by
  induction n generalizing curEnd with
  | zero => rw [Nat.zero_mul]; rfl
  | succ n ih =>
    rw [Nat.succ_mul, Nat.add_comm (n * _), ← Nat.add_assoc] at h ⊢
    have hfirst : ggmlNewObject pool curEnd tensorSize = .ok (curEnd + tensorOverhead) := by
      refine ggmlNewObject_eq_ok.2 ⟨?_, by omega⟩
      rw [ggmlPad_tensorSize]
      exact (Nat.mod_eq_of_lt (by omega)).symm
    rw [ggmlNewTensors, hfirst]
    exact ih h

/-- With memory for the pool, and no sum that wraps around, only the end of the file is in the way. -/
theorem loadBlob_of_room {file : File}
    (hroom : (nTensors + 1) * tensorOverhead + padTo memAlign size + memAlign < 2 ^ 64)
    (hmem : mem ((nTensors + 1) * tensorOverhead + padTo memAlign size) = true) :
    loadData mem ⟨true, false⟩ file nTensors offset size =
      if (file.bytes.drop offset).length < size then .null
      else .ok (some ((file.bytes.drop offset).take size)) := by
  have hsucc : (nTensors + 1) * tensorOverhead = nTensors * tensorOverhead + tensorOverhead :=
    Nat.succ_mul _ _
  have hoverhead : tensorOverhead = 368 := rfl
  have htensor : tensorSize = 336 := rfl
  have hobject : objectSize = 32 := rfl
  have halign : memAlign = 16 := rfl
  have hle : size ≤ padTo memAlign size := le_padTo (by decide) size
  have hinit : ggmlInit mem (word ((nTensors + 1) * tensorOverhead + size)) =
      .ok ((nTensors + 1) * tensorOverhead + padTo memAlign size) := by
    have hword : word ((nTensors + 1) * tensorOverhead + size) =
        (nTensors + 1) * tensorOverhead + size := Nat.mod_eq_of_lt (by omega)
    rw [hword]
    refine ggmlInit_eq_ok.2 ⟨?_, ?_⟩
    · rw [if_neg (by omega), ggmlPad_eq_padTo (by omega),
        padTo_add (by decide) (Dvd.dvd.mul_left (by decide) _)]
    · rintro (hzero | hno)
      · omega
      · rw [hmem] at hno
        cases hno
  have hblob : ggmlNewObject ((nTensors + 1) * tensorOverhead + padTo memAlign size) 0
      (word (tensorSize + size)) = .ok (tensorOverhead + padTo memAlign size) := by
    have hword : word (tensorSize + size) = tensorSize + size := Nat.mod_eq_of_lt (by omega)
    refine ggmlNewObject_eq_ok.2 ⟨?_, by omega⟩
    rw [hword, ggmlPad_eq_padTo (by omega), padTo_add (by decide) (by decide), Nat.zero_add,
      ← Nat.add_assoc]
    exact (Nat.mod_eq_of_lt (by omega)).symm
  have htensors : ggmlNewTensors ((nTensors + 1) * tensorOverhead + padTo memAlign size) nTensors
      (tensorOverhead + padTo memAlign size) =
        .ok (tensorOverhead + padTo memAlign size + nTensors * tensorOverhead) :=
    ggmlNewTensors_of_room (by omega) (by omega)
  change (ggmlInit mem _).bind (fun pool =>
    (ggmlNewObject pool 0 (word (tensorSize + size))).bind fun curEnd =>
      if pool < tensorOverhead + min (file.bytes.drop offset).length size then
        Load.crash .beyondPool
      else if (file.bytes.drop offset).length < size then Load.null
      else (ggmlNewTensors pool nTensors curEnd).bind _) = _
  rw [hinit]
  change (ggmlNewObject ((nTensors + 1) * tensorOverhead + padTo memAlign size) 0 _).bind _ = _
  rw [hblob]
  have hfit : ¬ (nTensors + 1) * tensorOverhead + padTo memAlign size <
      tensorOverhead + min (file.bytes.drop offset).length size := by omega
  refine (if_neg hfit).trans ?_
  rw [htensors]
  rfl

end Room

section Metadata
variable {ctx : WriterContext}

/-- The alignment is left out, or it is that of the writer. -/
def DefaultAligned (kvs : Kvs) : Prop :=
  ∀ value, (generalAlignment, value) ∈ kvs → value = .scalar .uint32 (32 : UInt32)

theorem findKey_eq_some (hfree : ∀ kv ∈ kvs, NulFree kv.1) (h : findKey kvs key = some kv) :
    kv ∈ kvs ∧ kv.1 = key := by
  have hmem := List.mem_of_find?_eq_some h
  have hkey := List.find?_some h
  rw [decide_eq_true_eq, cStr_eq_self (hfree kv hmem)] at hkey
  exact ⟨hmem, hkey⟩

theorem eq_of_checkReservedKeys (h : checkReservedKeys generalAlignment value = true) :
    ∃ v : UInt32, value = .scalar .uint32 v := by
  unfold checkReservedKeys at h
  split at h
  · exact ⟨_, rfl⟩
  · rw [decide_eq_true_eq] at h
    exact (h rfl).elim

/-- A reader goes by the writer's alignment just where no pair says another. -/
theorem alignment_eq_default_iff (h : ctx.Inv) :
    alignment? ctx.kvs = some defaultAlignment ↔ DefaultAligned ctx.kvs := by
  have hfree (kv : Bytes × KvValue) (hkv : kv ∈ ctx.kvs) : NulFree kv.1 := (h.pairs kv hkv).2.1
  cases hfind : findKey ctx.kvs generalAlignment with
  | none =>
    refine iff_of_true ?_ ?_
    · rw [alignment?, hfind]
    · intro value hmem
      have hno := List.find?_eq_none.1 hfind _ hmem
      rw [decide_eq_true_eq, cStr_eq_self (hfree _ hmem)] at hno
      exact (hno rfl).elim
  | some kv =>
    obtain ⟨hmem, hkey⟩ := findKey_eq_some hfree hfind
    obtain ⟨key, value⟩ := kv
    change key = generalAlignment at hkey
    subst hkey
    have hunique (value' : KvValue) (hmem' : (generalAlignment, value') ∈ ctx.kvs) :
        value' = value := by
      have hpair := List.inj_on_of_nodup_map h.keys_nodup hmem' hmem rfl
      exact congrArg Prod.snd hpair
    obtain ⟨v, rfl⟩ := eq_of_checkReservedKeys (h.pairs _ hmem).2.2
    have halignment : alignment? ctx.kvs = ((some v).filter validAlignment).map UInt32.toNat := by
      rw [alignment?, hfind]
      rfl
    rw [halignment]
    constructor
    · intro hv value' hmem'
      obtain ⟨v', hv', hnat⟩ := Option.map_eq_some_iff.1 hv
      obtain ⟨hsome, _⟩ := Option.filter_eq_some_iff.1 hv'
      cases hsome
      rw [hunique value' hmem', UInt32.toNat_inj.1 (show v.toNat = (32 : UInt32).toNat from hnat)]
    · intro hdefault
      cases hdefault _ hmem
      decide

theorem metaEnc_encodeMeta (h : ctx.Inv) (halignment : alignment? ctx.kvs = some alignment)
    (hadmitted : ∀ t ∈ ctx.infos, Admitted t.1.info) (hoffsets : ∀ t ∈ ctx.infos, t.2 < 2 ^ 64)
    (hlen : ctx.encodeMeta.length < 2 ^ 64) :
    MetaEnc allMemory ctx.encodeMeta ⟨ggufVersion, ctx.kvs, alignment, readInfos ctx.infos⟩ := by
  rw [WriterContext.encodeMeta] at hlen
  simp only [List.length_append] at hlen
  have hkvs : Iter (KvStep allMemory) _ [] _ ([] ++ ctx.kvs) :=
    iter_encodeKv h.pairs h.keys_nodup (by omega)
  have hnames : ((([] : Infos) ++ readInfos ctx.infos).map (·.1.name)).Nodup := by
    rw [List.nil_append, readInfos, List.map_map]
    exact h.names_nodup
  have hinfos : Iter (InfoStep allMemory) _ [] _ ([] ++ readInfos ctx.infos) :=
    iter_encodeInfo hadmitted hoffsets hnames
  exact ⟨⟨ggufVersion, ctx.infos.length, ctx.kvs.length⟩, _, _, _, rfl,
    ⟨rfl, .inr rfl, Nat.le_trans h.infos_le (by decide), Nat.le_trans h.kvs_le (by decide)⟩, hkvs,
    halignment, hinfos, rfl⟩

end Metadata

section Strides
variable {t : GgmlTensor}

/-- Where a row is one block, `ggml_nbytes` goes by the stride of the blocks, which no check of the
writer looks at. -/
def OneBlockStride (t : GgmlTensor) : Prop :=
  t.info.type.blckSize ≠ 1 → t.info.ne0 = t.info.type.blckSize →
    word (t.info.ne0 * t.nb.nb0) / t.info.type.blckSize = t.info.type.traits.typeSize

theorem contiguousFrom_cons (h : GgmlTensor.contiguousFrom next ((ne, nb) :: dims) = true)
    (hnext : next < 2 ^ 64) :
    (ne - 1) * nb = (ne - 1) * next ∧ GgmlTensor.contiguousFrom (word (next * ne)) dims = true := by
  rw [GgmlTensor.contiguousFrom] at h
  split at h
  case isTrue =>
    rw [Bool.and_eq_true, decide_eq_true_eq] at h
    rw [h.1]
    exact ⟨rfl, h.2⟩
  case isFalse hne =>
    rw [not_not] at hne
    have hword : word (next * ne) = next := by
      rw [hne, Nat.mul_one]
      exact Nat.mod_eq_of_lt hnext
    rw [hword, hne, Nat.sub_self, Nat.zero_mul, Nat.zero_mul]
    exact ⟨rfl, h⟩

/-- The strides of a contiguous tensor are those of its shape, as far as `ggml_nbytes` reads them
past the first. -/
theorem strides_of_contiguous (h : t.isContiguous = true) :
    (t.info.ne0 = t.info.type.blckSize ∨ t.nb.nb0 = t.info.type.traits.typeSize) ∧
      (t.info.ne1 - 1) * t.nb.nb1 = (t.info.ne1 - 1) * t.info.nb1 ∧
      (t.info.ne2 - 1) * t.nb.nb2 = (t.info.ne2 - 1) * t.info.nb2 ∧
      (t.info.ne3 - 1) * t.nb.nb3 = (t.info.ne3 - 1) * t.info.nb3 := by
  have hlt (n : Nat) : word n < 2 ^ 64 := Nat.mod_lt _ (by decide)
  rw [GgmlTensor.isContiguous] at h
  split at h
  case isTrue => cases h
  case isFalse hfirst =>
    obtain ⟨h1, hrest⟩ := contiguousFrom_cons h (hlt _)
    obtain ⟨h2, hrest⟩ := contiguousFrom_cons hrest (hlt _)
    obtain ⟨h3, _⟩ := contiguousFrom_cons hrest (hlt _)
    refine ⟨?_, h1, h2, h3⟩
    rw [not_and_or, not_not, not_not] at hfirst
    exact hfirst

theorem typeSize_lt (type : GgmlType) : type.traits.typeSize < 2 ^ 32 := by
  cases type <;> decide

theorem blckSize_le (type : GgmlType) : type.blckSize ≤ 256 := by
  cases type <;> decide

theorem word_add_inj {a b r : Nat} (ha : a < 2 ^ 64) (hb : b < 2 ^ 64)
    (h : word (a + r) = word (b + r)) : a = b := by
  simp only [word] at h
  omega

theorem nbytes_eq_iff (h : t.isContiguous = true) :
    t.nbytes = t.info.ggmlNbytes ↔ OneBlockStride t := by
  obtain ⟨hfirst, h1, h2, h3⟩ := strides_of_contiguous h
  rw [GgmlTensor.nbytes, TensorInfo.ggmlNbytes, ggmlNbytes, ggmlNbytes, OneBlockStride]
  by_cases hne : t.info.ne0 = 0
  · rw [if_pos hne, if_pos hne]
    refine iff_of_true rfl fun _ hblck => ?_
    exact absurd (hblck ▸ hne) (Nat.pos_iff_ne_zero.1 t.blckSize_pos)
  rw [if_neg hne, if_neg hne, TensorInfo.strides, h1, h2, h3]
  by_cases hb : t.info.type.blckSize = 1
  · refine iff_of_true ?_ fun h => (h hb).elim
    have hrow : (t.info.ne0 - 1) * t.nb.nb0 = (t.info.ne0 - 1) * t.info.type.traits.typeSize := by
      obtain hblck | hstride := hfirst
      · rw [hblck, hb, Nat.sub_self, Nat.zero_mul, Nat.zero_mul]
      · rw [hstride]
    rw [if_pos hb, if_pos hb, hrow]
  · rw [if_neg hb, if_neg hb]
    by_cases hblck : t.info.ne0 = t.info.type.blckSize
    · have hsize := typeSize_lt t.info.type
      have hblckLe := blckSize_le t.info.type
      have hrow : word (t.info.ne0 * t.info.type.traits.typeSize) / t.info.type.blckSize =
          t.info.type.traits.typeSize := by
        have hmul : t.info.type.blckSize * t.info.type.traits.typeSize < 2 ^ 64 :=
          Nat.lt_of_lt_of_le (Nat.mul_lt_mul_of_le_of_lt hblckLe hsize (by decide)) (by decide)
        have hword : word (t.info.type.blckSize * t.info.type.traits.typeSize) =
            t.info.type.blckSize * t.info.type.traits.typeSize := Nat.mod_eq_of_lt hmul
        rw [hblck, hword, Nat.mul_div_cancel_left _ t.blckSize_pos]
      rw [hrow]
      constructor
      · intro heq _ _
        have hlt : word (t.info.ne0 * t.nb.nb0) / t.info.type.blckSize < 2 ^ 64 :=
          Nat.lt_of_le_of_lt (Nat.div_le_self _ _) (Nat.mod_lt _ (by decide))
        exact word_add_inj hlt (Nat.lt_trans hsize (by decide)) heq
      · intro hstride
        rw [hstride hb hblck]
    · refine iff_of_true ?_ fun _ h => (hblck h).elim
      rw [hfirst.resolve_left hblck]

end Strides

section Main
variable {ctx : WriterContext}

/-- The bytes of a file, all of the padding included. -/
def WriterContext.fileBytes (ctx : WriterContext) : Nat :=
  padTo ctx.alignment ctx.encodeMeta.length + dataBytes ctx.alignment ctx.infos

/-- So many bytes of the data section from an offset on. -/
def DataAt (blob : Bytes) (offset n : Nat) (bs : Bytes) : Prop :=
  offset + n ≤ blob.length ∧ (blob.drop offset).take n = bs

/-- What is read is what was written: pairs, infos with their offsets, alignment and data. -/
structure RestoredAs (ctx : WriterContext) (g : GgufContext) : Prop where
  kvs : g.head.kvs = ctx.kvs
  infos : g.head.infos = readInfos ctx.infos
  alignment : g.head.alignment = ctx.alignment
  data : ∃ blob, g.data = some blob ∧ ∀ t ∈ ctx.infos, ∃ bs, t.1.bytes = some bs ∧
    DataAt blob t.2 t.1.info.ggmlNbytes bs

/-- Writing succeeds, reading what is written succeeds, and it restores the context. -/
def RoundTrips (ctx : WriterContext) : Prop :=
  ∃ bs hlt g, ctx.writeOut = some bs ∧
    ggufInitFromFile allMemory ⟨true, false⟩ ⟨bs, hlt⟩ = .ok g ∧ RestoredAs ctx g

/-- What a context must satisfy to be restored. -/
structure Restorable (ctx : WriterContext) : Prop where
  alignment : DefaultAligned ctx.kvs
  data : ∀ t ∈ ctx.infos, t.1.data.isSome = true
  admitted : ∀ t ∈ ctx.infos, Admitted t.1.info
  strides : ∀ t ∈ ctx.infos, OneBlockStride t.1
  length : ctx.fileBytes < 2 ^ 63

/-- What is written is as long as its parts, and every tensor had data. -/
theorem of_foldlM_writeTensorData {infos : WriterInfos} (ha : 0 < ctx.alignment)
    (hstart : ctx.alignment ∣ written.length)
    (h : infos.foldlM (ctx.writeTensorData offsetData) written = some out) :
    out.length = written.length + dataBytes ctx.alignment infos ∧
      ∀ t ∈ infos, t.1.data.isSome = true := by
  induction infos generalizing written with
  | nil =>
    cases h
    exact ⟨rfl, List.forall_mem_nil _⟩
  | cons t infos ih =>
    rw [List.foldlM_cons] at h
    obtain ⟨next, hstep, h⟩ := Option.bind_eq_some_iff.1 h
    obtain ⟨_, _, bs, hbs, rfl⟩ := writeTensorData_eq_some.1 hstep
    have hnext : (written ++ bs ++ zeros ctx.alignment (written ++ bs).length).length =
        written.length + padTo ctx.alignment t.1.nbytes := by
      rw [length_padded_zeros ha, List.length_append, GgmlTensor.length_bytes hbs,
        padTo_add ha hstart]
    obtain ⟨hlen, hdata⟩ := ih (by
      rw [hnext]
      exact Nat.dvd_add hstart (dvd_padTo _ _)) h
    have hcons : dataBytes ctx.alignment (t :: infos) =
        padTo ctx.alignment t.1.nbytes + dataBytes ctx.alignment infos := List.sum_cons
    obtain ⟨data, hsome, _⟩ := Option.map_eq_some_iff.1 hbs
    refine ⟨?_, List.forall_mem_cons.2 ⟨Option.isSome_iff_exists.2 ⟨data, hsome⟩, hdata⟩⟩
    rw [hlen, hnext, hcons, Nat.add_assoc]

theorem InfoStep.admitted (h : InfoStep mem infos enc infos')
    (hinfos : ∀ t ∈ infos, Admitted t.1) : ∀ t ∈ infos', Admitted t.1 := by
  obtain ⟨name, nDims, shape, type, offset, _, _, _, _, _, _, _, _, hshape, htype, _, rfl⟩ := h
  obtain ⟨_, _, _, _, _, _, _, _, _, hfew⟩ := hshape
  obtain ⟨_, _, _, _, hblck, hmod⟩ := htype
  intro t ht
  obtain ht | ht := List.mem_append.1 ht
  · exact hinfos t ht
  · rw [List.mem_singleton] at ht
    rw [ht]
    exact ⟨hfew, Nat.pos_of_ne_zero hblck, Nat.dvd_of_mod_eq_zero hmod⟩

theorem MetaEnc.admitted (h : MetaEnc mem enc m) : ∀ t ∈ m.infos, Admitted t.1 := by
  obtain ⟨_, _, _, _, _, _, _, _, hinfos, _⟩ := h
  exact forall_infos InfoStep.admitted hinfos (List.forall_mem_nil _)

theorem MetaEnc.alignment_eq (h : MetaEnc mem enc m) : alignment? m.kvs = some m.alignment := by
  obtain ⟨_, _, _, _, _, _, _, halignment, _⟩ := h
  exact halignment

theorem length_paddedMeta (ha : 0 < ctx.alignment) :
    ctx.paddedMeta.length = padTo ctx.alignment ctx.encodeMeta.length :=
  length_padded_zeros ha _

theorem restorable_of_roundTrips (hinv : ctx.Inv)
    (hcontiguous : ∀ t ∈ ctx.infos, t.1.isContiguous = true) (h : RoundTrips ctx) :
    Restorable ctx := by
  obtain ⟨bs, hlt, g, hwrite, hread, hrestored⟩ := h
  have ha : 0 < ctx.alignment := by
    rw [hinv.alignment]
    decide
  have hdvd : ctx.alignment ∣ ctx.paddedMeta.length := by
    rw [length_paddedMeta ha]
    exact dvd_padTo _ _
  obtain ⟨hlen, hdata⟩ := of_foldlM_writeTensorData ha hdvd hwrite
  obtain ⟨enc, rest, _, hmeta, _⟩ := ggufInitFromFile_eq_ok.1 hread
  have hadmitted := hmeta.admitted
  rw [hrestored.infos, readInfos, List.forall_mem_map] at hadmitted
  have halignment := hmeta.alignment_eq
  rw [hrestored.kvs, hrestored.alignment, hinv.alignment, alignment_eq_default_iff hinv] at halignment
  refine ⟨halignment, hdata, hadmitted, ?_, ?_⟩
  · intro t ht
    obtain ⟨blob, _, hall⟩ := hrestored.data
    obtain ⟨bs', hbs', hle, htake⟩ := hall t ht
    have hlen' := congrArg List.length htake
    rw [List.length_take, List.length_drop, GgmlTensor.length_bytes hbs'] at hlen'
    exact (nbytes_eq_iff (hcontiguous t ht)).1 (by omega)
  · rw [length_paddedMeta ha] at hlen
    rwa [WriterContext.fileBytes, ← hlen]

/-- The pool of the tensors does not wrap around for a file that can be written. -/
theorem room_of_length (hinv : ctx.Inv) (h : ctx.fileBytes < 2 ^ 63) :
    (ctx.infos.length + 1) * tensorOverhead + dataBytes ctx.alignment ctx.infos + memAlign <
      2 ^ 64 := by
  have ha : 0 < ctx.alignment := by
    rw [hinv.alignment]
    decide
  have hinfos := hinv.infos_le
  have hmax : maxSize sizeofTensorInfo = (2 ^ 63 - 1) / 344 := rfl
  have hoverhead : tensorOverhead = 368 := rfl
  have halign : memAlign = 16 := rfl
  have hcount : ctx.infos.length * 32 ≤
      (ctx.infos.flatMap fun t => encodeInfo t.1.info t.2).length := by
    refine mul_length_le_flatMap (fun t => ?_) ctx.infos
    have hpos := nDims_pos t.1.info
    rw [length_encodeInfo, TensorInfo.infoBytes]
    omega
  have hmeta : (ctx.infos.flatMap fun t => encodeInfo t.1.info t.2).length ≤
      ctx.encodeMeta.length := by
    rw [WriterContext.encodeMeta]
    simp only [List.length_append]
    omega
  have hpad := le_padTo ha ctx.encodeMeta.length
  rw [WriterContext.fileBytes] at h
  rw [hmax] at hinfos
  rw [hoverhead, halign]
  omega

theorem dataSize_readInfos {infos : WriterInfos}
    (hnbytes : ∀ t ∈ infos, t.1.nbytes = t.1.info.ggmlNbytes)
    (hlaid : Laid alignment 0 (writerSections infos) stop) (ha : 0 < alignment)
    (hstop : stop + alignment < 2 ^ 64) :
    dataSize alignment 0 (readInfos infos) = some stop := by
  have hsections : sections (readInfos infos) = writerSections infos := by
    rw [sections, readInfos, List.map_map]
    exact List.map_congr_left fun t ht => congrArg (Prod.mk t.2) (hnbytes t ht).symm
  refine (dataSize_eq_some ?_ (by decide)).2 ⟨hsections ▸ hlaid, by omega⟩
  rw [readInfos, List.forall_mem_map]
  intro t ht
  have hend : t.2 + t.1.nbytes ≤ stop := hlaid.end_le ha _ (List.mem_map_of_mem ht)
  rw [← hnbytes t ht]
  omega

theorem roundTrips_of_restorable (hinv : ctx.Inv)
    (hcontiguous : ∀ t ∈ ctx.infos, t.1.isContiguous = true) (h : Restorable ctx) :
    RoundTrips ctx := by
  have ha32 : ctx.alignment = 32 := hinv.alignment
  have ha : 0 < ctx.alignment := by omega
  have hlength := h.length
  rw [WriterContext.fileBytes] at hlength
  have hmetaLen : ctx.paddedMeta.length = _ := length_paddedMeta ha
  have hpadMeta := le_padTo ha ctx.encodeMeta.length
  have hnbytes (t : GgmlTensor × Nat) (ht : t ∈ ctx.infos) : t.1.nbytes = t.1.info.ggmlNbytes :=
    (nbytes_eq_iff (hcontiguous t ht)).2 (h.strides t ht)
  -- what is written
  have hlaid := laid_of_chained hinv.chained ha (by omega)
  rw [Nat.zero_add] at hlaid
  have hdvd : ctx.alignment ∣ ctx.paddedMeta.length := by
    rw [hmetaLen]
    exact dvd_padTo _ _
  obtain ⟨out, hout, ⟨body, hbody⟩, houtLen, hdata⟩ :=
    foldlM_writeTensorData ha hdvd hlaid hcontiguous h.data (Nat.dvd_zero _) rfl
  have hend (t : GgmlTensor × Nat) (ht : t ∈ ctx.infos) :
      t.2 + t.1.nbytes ≤ dataBytes ctx.alignment ctx.infos :=
    hlaid.end_le ha _ (List.mem_map_of_mem ht)
  -- what is read
  have hmeta := metaEnc_encodeMeta hinv ((alignment_eq_default_iff hinv).2 h.alignment) h.admitted
    (fun t ht => Nat.lt_of_le_of_lt (Nat.le_trans (Nat.le_add_right _ _) (hend t ht)) (by omega))
    (by omega)
  have hoffset : ctx.paddedMeta.length = ggmlPad ctx.encodeMeta.length ctx.alignment := by
    rw [ggmlPad_eq_padTo (by omega), hmetaLen]
  have hblob : (out.drop ctx.paddedMeta.length).length = dataBytes ctx.alignment ctx.infos := by
    rw [List.length_drop, houtLen, Nat.add_sub_cancel_left]
  have hload : loadData allMemory ⟨true, false⟩ ⟨out, by omega⟩ (readInfos ctx.infos).length
      ctx.paddedMeta.length (dataBytes ctx.alignment ctx.infos) =
        .ok (some (out.drop ctx.paddedMeta.length)) := by
    have h16 : memAlign ∣ dataBytes ctx.alignment ctx.infos :=
      Nat.dvd_trans (by rw [ha32]; decide) (hlaid.dvd_stop (Nat.dvd_zero _))
    have hroom := room_of_length hinv h.length
    rw [← padTo_of_dvd (by decide) h16] at hroom
    rw [readInfos, List.length_map, loadBlob_of_room hroom rfl, hblob, if_neg (Nat.lt_irrefl _)]
    exact congrArg (fun bs => Load.ok (some bs)) (List.take_of_length_le (Nat.le_of_eq hblob))
  have hsize := dataSize_readInfos hnbytes hlaid ha (by omega)
  refine ⟨out, by omega, ⟨⟨ggufVersion, ctx.kvs, ctx.alignment, readInfos ctx.infos⟩,
    ctx.paddedMeta.length, dataBytes ctx.alignment ctx.infos,
    some (out.drop ctx.paddedMeta.length)⟩, hout, ?_, rfl, rfl, rfl, ?_⟩
  · refine ggufInitFromFile_eq_ok.2 ⟨ctx.encodeMeta,
      zeros ctx.alignment ctx.encodeMeta.length ++ body, ?_, ?_, hoffset, ?_, hsize, hload⟩
    · rw [← List.append_assoc]
      exact hbody.symm
    · rw [hinv.alignment]
      exact hmeta
    · exact Nat.lt_of_le_of_lt (Nat.le_of_eq hmetaLen) (by omega)
  · refine ⟨_, rfl, fun t ht => ⟨_, hdata t ht, ?_, ?_⟩⟩
    · rw [hblob, ← hnbytes t ht]
      exact hend t ht
    · rw [List.drop_drop, hnbytes t ht]

/-- Reading undoes writing for what the calls can build, just where it is restorable. -/
theorem roundTrips_iff_restorable (hrun : runCalls calls = some ctx)
    (hcontiguous : ∀ t ∈ ctx.infos, t.1.isContiguous = true) : RoundTrips ctx ↔ Restorable ctx :=
  have hinv := WriterContext.inv_of_runCalls hrun
  ⟨restorable_of_roundTrips hinv hcontiguous, roundTrips_of_restorable hinv hcontiguous⟩

/-- A tensor of one number. -/
def oneNumber : GgmlTensor where
  info := ⟨bytes "t", .f32, 1, 1, 1, 1, Nat.one_pos, Nat.one_pos, Nat.one_pos⟩
  nb := ⟨4, 4, 4, 4⟩
  data := some fun i => i.toUInt8
  ne_lt := by decide
  name_lt := by decide
  name_nulFree := by simp [NulFree, bytes]
  blckSize_pos := by decide

def alignedCalls (alignment : UInt32) : List WriterCall :=
  [.setVal generalAlignment .uint32 alignment, .addTensor oneNumber]

def alignedContext (alignment : UInt32) : WriterContext :=
  ⟨[(generalAlignment, .scalar .uint32 alignment)], [(oneNumber, 0)], 32⟩

theorem runCalls_aligned (h : validAlignment alignment = true) :
    runCalls (alignedCalls alignment) = some (alignedContext alignment) := by
  have hkey : cStr generalAlignment = generalAlignment := by decide
  have hreserved : checkReservedKeys generalAlignment (.scalar .uint32 alignment) = true := by
    change (decide (generalAlignment ≠ generalAlignment) || validAlignment alignment) = true
    rw [h, Bool.or_true]
  have hset : ggufSet [] generalAlignment (.scalar .uint32 alignment) =
      some [(generalAlignment, .scalar .uint32 alignment)] := by
    rw [ggufSet, hkey]
    exact if_pos ⟨hreserved, by decide⟩
  have hval : ggufInitEmpty.setVal generalAlignment .uint32 alignment =
      some ⟨[(generalAlignment, .scalar .uint32 alignment)], [], 32⟩ := by
    change (ggufSet [] generalAlignment (.scalar .uint32 alignment)).bind _ = _
    rw [hset]
    rfl
  change (ggufInitEmpty.setVal generalAlignment .uint32 alignment).bind _ = _
  rw [hval]
  rfl

theorem roundTrips_aligned : RoundTrips (alignedContext 32) :=
  (roundTrips_iff_restorable (runCalls_aligned (by decide)) (by decide)).2
    { alignment := by
        intro value hvalue
        cases List.mem_singleton.1 hvalue
        rfl
      data := by decide
      admitted := by
        intro t ht
        cases List.mem_singleton.1 ht
        exact ⟨by decide, by decide, ⟨1, rfl⟩⟩
      strides := by
        intro t ht
        cases List.mem_singleton.1 ht
        exact fun hb => (hb rfl).elim
      length := by decide +kernel }

theorem aligned_not_restored :
    runCalls (alignedCalls 64) = some (alignedContext 64) ∧
      (∀ t ∈ (alignedContext 64).infos, t.1.isContiguous = true) ∧
      ¬ RoundTrips (alignedContext 64) := by
  have hrun : runCalls (alignedCalls 64) = some (alignedContext 64) := runCalls_aligned (by decide)
  have hcontiguous : ∀ t ∈ (alignedContext 64).infos, t.1.isContiguous = true := by decide
  refine ⟨hrun, hcontiguous, fun h => ?_⟩
  have hrestorable :=
    restorable_of_roundTrips (WriterContext.inv_of_runCalls hrun) hcontiguous h
  exact absurd (hrestorable.alignment _ List.mem_cons_self) (by decide)

end Main

end ActQuant.Gguf
