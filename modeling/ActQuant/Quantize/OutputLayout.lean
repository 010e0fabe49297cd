import ActQuant.Gguf.RoundTrip
import ActQuant.Quantize.ModelQuantize

namespace ActQuant.Quantize
open ActQuant.Lib ActQuant.Gguf ActQuant.Quant

section Headers
variable {ctx ctx' : WriterContext} {infos : List TensorInfo}

theorem length_encodeKv (kv : Bytes × KvValue) : (encodeKv kv).length = kvBytes kv := by
  obtain ⟨key, value⟩ := kv
  rw [encodeKv, List.length_append, length_encodeStr, kvBytes]
  cases value with
  | scalar type value =>
    rw [encodeValue, List.length_append, length_leBytes, GgufType.length_encode]
  | array type values =>
    simp only [encodeValue, List.length_append, length_leBytes, List.length_flatMap]
    rw [List.map_congr_left fun value _ => type.length_encode value]
    omega

/-- The types and the offsets are no part of the length of the metadata. -/
theorem length_encodeMeta (ctx : WriterContext) :
    ctx.encodeMeta.length = metaBytes ctx.kvs (ctx.infos.map fun t => t.1.info) := by
  have hmagic : ggufMagic.length = 4 := rfl
  have hkvs : (ctx.kvs.map fun kv => (encodeKv kv).length) = ctx.kvs.map kvBytes :=
    List.map_congr_left fun kv _ => length_encodeKv kv
  have hinfos : (ctx.infos.map fun t => (encodeInfo t.1.info t.2).length) =
      (ctx.infos.map fun t => t.1.info).map TensorInfo.infoBytes := by
    rw [List.map_map]
    exact List.map_congr_left fun t _ => length_encodeInfo t.1.info t.2
  rw [WriterContext.encodeMeta, metaBytes]
  simp only [List.length_append, length_leBytes, List.length_flatMap, hmagic, hkvs, hinfos]
  omega

/-- A writer never has an alignment that a reader stops at. -/
theorem exists_alignment (h : ctx.Inv) : ∃ a, alignment? ctx.kvs = some a ∧ 0 < a ∧ a < 2 ^ 32 := by
  rw [alignment?]
  cases hfind : findKey ctx.kvs generalAlignment with
  | none => exact ⟨defaultAlignment, rfl, by decide, by decide⟩
  | some kv =>
    obtain ⟨hmem, hkey⟩ := findKey_eq_some (fun kv hkv => (h.pairs kv hkv).2.1) hfind
    have hreserved := (h.pairs kv hmem).2.2
    rw [hkey] at hreserved
    obtain ⟨v, hv⟩ := eq_of_checkReservedKeys hreserved
    rw [hv] at hreserved
    have hvalid : validAlignment v = true := by
      simpa only [checkReservedKeys, ne_eq, not_true_eq_false, decide_false, Bool.false_or]
        using hreserved
    refine ⟨v.toNat, ?_, toNat_pos_of_valid hvalid, v.toNat_lt⟩
    simp only [hv, KvValue.valU32, Option.filter_some, hvalid, if_true, Option.map_some]

/-- A header for these tensors, each with the strides of its shape. -/
structure HeaderOf (infos : List TensorInfo) (ctx : WriterContext) : Prop where
  inv : ctx.Inv
  infos : (ctx.infos.map fun t => t.1.info) = infos
  strides : ∀ t ∈ ctx.infos, t.1.nb = t.1.info.strides
  admitted : ∀ t ∈ ctx.infos, Admitted t.1.info

theorem infos_of_setValue (h : ctx.setValue key value = some ctx') : ctx'.infos = ctx.infos := by
  obtain ⟨kvs, _, h⟩ := Option.bind_eq_some_iff.1 h
  split at h
  case isTrue => cases h
  case isFalse =>
    cases h
    rfl

theorem infos_of_setVal (h : ctx.setVal key type value = some ctx') : ctx'.infos = ctx.infos := by
  obtain ⟨value', heq⟩ := WriterContext.setVal_eq ctx key type value
  rw [heq] at h
  exact infos_of_setValue h

theorem HeaderOf.of_infos (h : HeaderOf infos ctx) (hinv : ctx'.Inv)
    (hinfos : ctx'.infos = ctx.infos) : HeaderOf infos ctx' where
  inv := hinv
  infos := hinfos ▸ h.infos
  strides := hinfos ▸ h.strides
  admitted := hinfos ▸ h.admitted

theorem HeaderOf.setVal (h : HeaderOf infos ctx) (hset : ctx.setVal key type value = some ctx') :
    HeaderOf infos ctx' :=
  h.of_infos (h.inv.setVal hset) (infos_of_setVal hset)

theorem HeaderOf.setKvPair (h : HeaderOf infos ctx) (hset : ctx.setKvPair kv = some ctx') :
    HeaderOf infos ctx' := by
  refine h.of_infos (h.inv.setKvPair hset) ?_
  rw [WriterContext.setKvPair] at hset
  split at hset
  · exact infos_of_setVal hset
  · exact infos_of_setValue hset
  · rw [WriterContext.setArrData] at hset
    split at hset
    case isTrue => cases hset
    case isFalse => exact infos_of_setValue hset

theorem HeaderOf.setOverride (h : HeaderOf infos ctx)
    (hset : setOverride ctx o = some ctx') : HeaderOf infos ctx' := by
  rw [Quantize.setOverride] at hset
  split at hset
  · exact h.setVal hset
  · exact h.setVal hset
  · exact h.setVal hset
  · exact h.setVal hset
  · cases hset
    exact h

theorem headerOf_empty : HeaderOf [] ggufInitEmpty where
  inv := WriterContext.inv_empty
  infos := rfl
  strides := List.forall_mem_nil _
  admitted := List.forall_mem_nil _

theorem HeaderOf.addTensor (h : HeaderOf infos ctx) {k : Kept}
    (hadd : ctx.addTensor k.tensor = some ctx') :
    HeaderOf (infos ++ [k.info]) ctx' ∧ ctx'.kvs = ctx.kvs := by
  have hinv := h.inv.addTensor hadd
  rw [WriterContext.addTensor] at hadd
  split at hadd
  case isTrue => cases hadd
  case isFalse =>
    split at hadd
    case isTrue => cases hadd
    case isFalse =>
      cases hadd
      refine ⟨⟨hinv, ?_, ?_, ?_⟩, rfl⟩
      · rw [List.map_append, h.infos]
        rfl
      · exact List.forall_mem_append.2 ⟨h.strides, List.forall_mem_singleton.2 rfl⟩
      · exact List.forall_mem_append.2 ⟨h.admitted, List.forall_mem_singleton.2
          ⟨k.weight.admitted.few, k.weight.admitted.wholeBlocks⟩⟩

/-- The tensor of a name that is nowhere before gets the type. -/
theorem setTypeIn_append {before after infos' : WriterInfos} {t : GgmlTensor × Nat}
    (h : setTypeIn alignment name type (before ++ t :: after) = some infos')
    (hname : t.1.info.name = name) (hbefore : ∀ u ∈ before, u.1.info.name ≠ name) :
    ∃ hpos : 0 < type.blckSize, type.blckSize ∣ t.1.info.ne0 ∧
      infos' = before ++ (t.1.setType type hpos, t.2) ::
        updateOffsets alignment (t.1.setType type hpos) t.2 after := by
  induction before generalizing infos' with
  | nil =>
    rw [List.nil_append, setTypeIn, if_pos hname] at h
    split at h
    case isFalse => cases h
    case isTrue hpos =>
      split at h
      case isFalse => cases h
      case isTrue hmod =>
        cases h
        exact ⟨hpos, Nat.dvd_of_mod_eq_zero hmod, rfl⟩
  | cons u before ih =>
    rw [List.forall_mem_cons] at hbefore
    rw [List.cons_append, setTypeIn, if_neg hbefore.1] at h
    obtain ⟨rest, hrest, rfl⟩ := Option.map_eq_some_iff.1 h
    obtain ⟨hpos, hdvd, rfl⟩ := ih hrest hbefore.2
    exact ⟨hpos, hdvd, rfl⟩

theorem forall_updateOffsets {P : GgmlTensor → Prop} {after : WriterInfos}
    (h : ∀ t ∈ after, P t.1) : ∀ t ∈ updateOffsets alignment t₀ offset after, P t.1 := by
  have hall : ∀ t ∈ (updateOffsets alignment t₀ offset after).map (·.1), P t := by
    rw [tensors_updateOffsets, List.forall_mem_map]
    exact h
  rwa [List.forall_mem_map] at hall

/-- The tensor that has the name gets the type, its strides and its size with it. -/
theorem HeaderOf.setTensorType {before after : List TensorInfo} {info : TensorInfo}
    (h : HeaderOf (before ++ info :: after) ctx) (hfree : NulFree info.name)
    (hset : ctx.setTensorType info.name type = some ctx') :
    HeaderOf (before ++ { info with type := type } :: after) ctx' ∧ ctx'.kvs = ctx.kvs ∧
      ∃ t, ctx'.infos.find? (fun t => t.1.info.name = info.name) = some t ∧
        t.1.nbytes = TensorInfo.ggmlNbytes { info with type := type } := by
  have hinv := h.inv.setTensorType hset
  rw [WriterContext.setTensorType, cStr_eq_self hfree] at hset
  obtain ⟨infos', hinfos', rfl⟩ := Option.map_eq_some_iff.1 hset
  obtain ⟨first, rest, hinfos, rfl, hrest⟩ := List.map_eq_append_iff.1 h.infos
  obtain ⟨t, last, rfl, rfl, rfl⟩ := List.map_eq_cons_iff.1 hrest
  have hnodup := h.inv.names_nodup
  rw [hinfos, List.map_append, List.map_cons, List.nodup_append] at hnodup
  have hbefore (u : GgmlTensor × Nat) (hu : u ∈ first) : u.1.info.name ≠ t.1.info.name :=
    hnodup.2.2 _ (List.mem_map_of_mem hu) _ List.mem_cons_self
  rw [hinfos] at hinfos'
  obtain ⟨hpos, hdvd, rfl⟩ := setTypeIn_append hinfos' rfl hbefore
  have hstrides := h.strides
  have hadmitted := h.admitted
  rw [hinfos, List.forall_mem_append, List.forall_mem_cons] at hstrides hadmitted
  refine ⟨⟨hinv, ?_, ?_, ?_⟩, rfl, (t.1.setType type hpos, t.2), ?_, rfl⟩
  · have htensors := congrArg (List.map GgmlTensor.info)
      (tensors_updateOffsets ctx.alignment (t.1.setType type hpos) t.2 last)
    rw [List.map_map, List.map_map] at htensors
    rw [List.map_append, List.map_cons]
    exact congrArg (fun infos => _ ++ _ :: infos) htensors
  · exact List.forall_mem_append.2 ⟨hstrides.1, List.forall_mem_cons.2 ⟨rfl,
      forall_updateOffsets (P := fun t => t.nb = t.info.strides) hstrides.2.2⟩⟩
  · exact List.forall_mem_append.2 ⟨hadmitted.1, List.forall_mem_cons.2
      ⟨⟨hadmitted.2.1.few, hpos, hdvd⟩,
        forall_updateOffsets (P := fun t => Admitted t.info) hadmitted.2.2⟩⟩
  · have hnone : first.find? (fun u => u.1.info.name = t.1.info.name) = none := by
      rw [List.find?_eq_none]
      intro u hu
      rw [decide_eq_true_eq]
      exact hbefore u hu
    rw [List.find?_append, hnone, Option.none_or]
    exact List.find?_cons_of_pos (decide_eq_true rfl)

end Headers

/-- A tensor that was written: its new type and its new data. -/
structure Encoded where
  kept : Kept
  type : GgmlType
  data : Bytes

def Encoded.info (e : Encoded) : TensorInfo := { e.kept.info with type := e.type }

namespace OutputFile
variable (f : OutputFile)

/-- Where the data of each tensor start in the file. -/
def starts : List Nat := paddedOffsets defaultAlignment f.placeholder (f.chunks.map List.length)

/-- What a reader makes of the file are these tensors, each where it was written. -/
structure Finds (tensors : List Encoded) (g : GgufContext) : Prop where
  infos : g.head.infos.map Prod.fst = tensors.map Encoded.info
  places : (g.head.infos.map fun t => g.offset + t.2) = f.starts
  data : ∃ blob, g.data = some blob ∧
    List.Forall₂ (fun e t => DataAt blob t.2 t.1.ggmlNbytes e.data) tensors g.head.infos

/-- The metadata fill the placeholder, and a reader finds the tensors. -/
structure WellLaid (tensors : List Encoded) : Prop where
  placeholder : f.ctx.paddedMeta.length = f.placeholder
  found : ∃ hlt g, ggufInitFromFile allMemory ⟨true, false⟩ ⟨f.bytes, hlt⟩ = .ok g ∧
    f.Finds tensors g

/-- The file of a header and of the tensors that were written behind it. -/
structure Written (kvs : Kvs) (tensors : List Encoded) : Prop where
  header : HeaderOf (tensors.map Encoded.info) f.ctx
  kvs : f.ctx.kvs = kvs
  placeholder : f.placeholder = f.ctx.paddedMeta.length
  chunks : f.chunks = tensors.map Encoded.data
  sizes : ∀ e ∈ tensors, e.data.length = e.info.ggmlNbytes
  length : f.bytes.length < 2 ^ 63

end OutputFile

/-- Metadata and tensors of some sizes end where they are padded to by default, padded to the
alignment that is read; behind the last tensor less padding is enough. -/
structure Realigned (alignment metaSize : Nat) (sizes : List Nat) : Prop where
  offset : padTo alignment metaSize < 2 ^ 63
  header : sizes ≠ [] → padTo alignment metaSize = padTo defaultAlignment metaSize
  tensors : PadsAgree defaultAlignment alignment sizes

section Files
variable {f : OutputFile} {tensors : List Encoded}

theorem length_paddedChunk (data : Bytes) :
    (paddedChunk data).length = padTo defaultAlignment data.length :=
  length_padded_zeros (by decide) data

theorem length_flatMap_paddedChunk (chunks : List Bytes) :
    (chunks.flatMap paddedChunk).length =
      ((chunks.map List.length).map (padTo defaultAlignment)).sum := by
  rw [List.length_flatMap, List.map_map]
  exact congrArg List.sum (List.map_congr_left fun data _ => length_paddedChunk data)

/-- The data of each tensor are where the padding puts them. -/
theorem dataAt_flatMap {infos : Infos}
    (hinfos : infos.map Prod.fst = tensors.map Encoded.info)
    (hoffsets : infos.map Prod.snd = paddedOffsets defaultAlignment before.length
      ((tensors.map Encoded.data).map List.length))
    (hsizes : ∀ e ∈ tensors, e.data.length = e.info.ggmlNbytes) :
    List.Forall₂ (fun e t => DataAt (before ++ (tensors.map Encoded.data).flatMap paddedChunk)
      t.2 t.1.ggmlNbytes e.data) tensors infos := by
  induction tensors generalizing before infos with
  | nil =>
    cases List.map_eq_nil_iff.1 hinfos
    exact .nil
  | cons e tensors ih =>
    obtain ⟨t, infos, rfl, hinfo, hinfos⟩ := List.map_eq_cons_iff.1 hinfos
    rw [List.forall_mem_cons] at hsizes
    rw [List.map_cons, List.map_cons, List.map_cons, paddedOffsets, ← length_paddedChunk,
      ← List.length_append] at hoffsets
    obtain ⟨hoffset, hoffsets⟩ := List.cons.inj hoffsets
    have hrest := ih hinfos hoffsets hsizes.2
    rw [List.append_assoc] at hrest
    refine .cons ?_ hrest
    rw [hoffset, hinfo, ← hsizes.1, List.map_cons, List.flatMap_cons, paddedChunk]
    refine ⟨?_, ?_⟩
    · simp only [List.length_append]
      omega
    · rw [List.drop_left, List.append_assoc, List.take_left]

theorem dataAt_take (h : DataAt blob offset n bs) (hle : offset + n ≤ stop) :
    DataAt (blob.take stop) offset n bs := by
  refine ⟨?_, ?_⟩
  · rw [List.length_take]
    exact Nat.le_min.2 ⟨hle, h.1⟩
  · rw [List.drop_take, List.take_take, Nat.min_eq_left (by omega)]
    exact h.2

theorem le_of_loadData {file : File}
    (h : loadData mem ⟨true, false⟩ file n offset size = .ok data) :
    size ≤ (file.bytes.drop offset).length := by
  change (ggmlInit mem _).bind (fun pool => (ggmlNewObject pool 0 _).bind fun curEnd =>
    if pool < tensorOverhead + min (file.bytes.drop offset).length size then
      Load.crash .beyondPool
    else if (file.bytes.drop offset).length < size then Load.null else _) = _ at h
  obtain ⟨pool, _, h⟩ := Load.bind_eq_ok.1 h
  obtain ⟨curEnd, _, h⟩ := Load.bind_eq_ok.1 h
  split at h
  case isTrue => cases h
  case isFalse =>
    split at h
    case isTrue => cases h
    case isFalse hle => exact Nat.le_of_not_lt hle

namespace OutputFile.Written
variable {kvs : Kvs}

theorem bytes_eq (h : f.Written kvs tensors) :
    f.bytes = f.ctx.paddedMeta ++ (tensors.map Encoded.data).flatMap paddedChunk := by
  rw [OutputFile.bytes, h.chunks, ← h.placeholder]
  have hlen : (List.replicate f.placeholder (0 : UInt8)).length = f.placeholder :=
    List.length_replicate
  exact congrArg _ (List.drop_left' hlen)

theorem alignment_eq (h : f.Written kvs tensors) : f.ctx.alignment = defaultAlignment :=
  h.header.inv.alignment

theorem length_meta (h : f.Written kvs tensors) :
    f.ctx.paddedMeta.length = padTo defaultAlignment f.ctx.encodeMeta.length := by
  have ha : 0 < f.ctx.alignment := by
    rw [h.alignment_eq]
    decide
  rw [length_paddedMeta ha, h.alignment_eq]

/-- The sizes of the tensors in the header are those of the data. -/
theorem sizes_eq (h : f.Written kvs tensors) :
    (writerSections f.ctx.infos).map Prod.snd = (tensors.map Encoded.data).map List.length := by
  have hnbytes : (f.ctx.infos.map fun t => t.1.nbytes) =
      (f.ctx.infos.map fun t => t.1.info).map TensorInfo.ggmlNbytes := by
    rw [List.map_map]
    refine List.map_congr_left fun t ht => ?_
    rw [GgmlTensor.nbytes, h.header.strides t ht]
    rfl
  rw [writerSections, List.map_map, List.map_map]
  refine hnbytes.trans ?_
  rw [h.header.infos, List.map_map]
  exact List.map_congr_left fun e he => (h.sizes e he).symm

theorem dataBytes_eq (h : f.Written kvs tensors) : dataBytes defaultAlignment f.ctx.infos =
    ((tensors.map Encoded.data).flatMap paddedChunk).length := by
  rw [length_flatMap_paddedChunk, ← h.sizes_eq, writerSections, List.map_map, List.map_map]
  rfl

theorem fileBytes_lt (h : f.Written kvs tensors) : f.ctx.fileBytes < 2 ^ 63 := by
  have hlen := h.length
  rw [h.bytes_eq, List.length_append, h.length_meta, ← h.dataBytes_eq] at hlen
  rwa [WriterContext.fileBytes, h.alignment_eq]

theorem sections_eq (h : f.Written kvs tensors) :
    sections (readInfos f.ctx.infos) = writerSections f.ctx.infos := by
  rw [sections, readInfos, List.map_map]
  refine List.map_congr_left fun t ht => ?_
  have hnbytes : t.1.nbytes = t.1.info.ggmlNbytes := by
    rw [GgmlTensor.nbytes, h.header.strides t ht]
    rfl
  exact congrArg (Prod.mk t.2) hnbytes.symm

theorem laid (h : f.Written kvs tensors) :
    Laid defaultAlignment 0 (sections (readInfos f.ctx.infos))
      (dataBytes defaultAlignment f.ctx.infos) := by
  have hlt := h.fileBytes_lt
  have hdefault : defaultAlignment = 32 := rfl
  rw [WriterContext.fileBytes, h.alignment_eq] at hlt
  have hchained := h.header.inv.chained
  rw [h.alignment_eq] at hchained
  have hlaid := laid_of_chained hchained (by decide) (by omega)
  rwa [Nat.zero_add, ← h.sections_eq] at hlaid

theorem metaEnc (h : f.Written kvs tensors) (ha : alignment? kvs = some a) :
    MetaEnc allMemory f.ctx.encodeMeta ⟨ggufVersion, kvs, a, readInfos f.ctx.infos⟩ := by
  have hlt := h.fileBytes_lt
  rw [WriterContext.fileBytes, h.alignment_eq] at hlt
  have hpad := le_padTo (show 0 < defaultAlignment by decide) f.ctx.encodeMeta.length
  rw [← h.kvs] at ha ⊢
  refine metaEnc_encodeMeta h.header.inv ha h.header.admitted (fun t ht => ?_) (by omega)
  have hend := h.laid.end_le (by decide) (t.2, t.1.info.ggmlNbytes)
    (List.mem_map.2 ⟨(t.1.info, t.2), List.mem_map_of_mem ht, rfl⟩)
  simp only at hend
  omega

/-- What a reader comes to is fixed by the header; only the data may not be where it looks. -/
theorem read_iff (h : f.Written kvs tensors) (ha : alignment? kvs = some a) :
    ggufInitFromFile allMemory ⟨true, false⟩ ⟨f.bytes, h.length⟩ = .ok g ↔
      g.head = ⟨ggufVersion, kvs, a, readInfos f.ctx.infos⟩ ∧
        g.offset = padTo a f.ctx.encodeMeta.length ∧ g.offset < 2 ^ 63 ∧
        Laid a 0 (sections (readInfos f.ctx.infos)) g.size ∧ g.size < 2 ^ 64 ∧
        loadData allMemory ⟨true, false⟩ ⟨f.bytes, h.length⟩ f.ctx.infos.length g.offset g.size =
          .ok g.data := by
  have hlt := h.fileBytes_lt
  rw [WriterContext.fileBytes, h.alignment_eq] at hlt
  have hpad := le_padTo (show 0 < defaultAlignment by decide) f.ctx.encodeMeta.length
  obtain ⟨a', ha', _, haLt⟩ := exists_alignment h.header.inv
  rw [h.kvs, ha] at ha'
  cases ha'
  have hoffset : ggmlPad f.ctx.encodeMeta.length a = padTo a f.ctx.encodeMeta.length :=
    ggmlPad_eq_padTo (by omega)
  have hsmall : ∀ t ∈ readInfos f.ctx.infos, t.1.ggmlNbytes + a < 2 ^ 64 := by
    intro t ht
    have hend := h.laid.end_le (by decide) (t.2, t.1.ggmlNbytes) (List.mem_map_of_mem ht)
    simp only at hend
    omega
  have hlength : (readInfos f.ctx.infos).length = f.ctx.infos.length := List.length_map _
  have hbytes : f.bytes = f.ctx.encodeMeta ++ (zeros f.ctx.alignment f.ctx.encodeMeta.length ++
      (tensors.map Encoded.data).flatMap paddedChunk) := by
    rw [h.bytes_eq, WriterContext.paddedMeta, List.append_assoc]
  rw [ggufInitFromFile_eq_ok]
  constructor
  · rintro ⟨enc, rest, heq, hmeta, hoff, hoffLt, hsize, hload⟩
    have hread := spec_readMeta.ok.2 ⟨enc, heq, hmeta⟩
    have hread' := spec_readMeta.ok.2 ⟨_, hbytes, h.metaEnc ha⟩
    rw [hread] at hread'
    obtain ⟨hhead, hrest⟩ := Prod.mk.inj (Load.ok.inj hread')
    rw [hrest] at heq
    have henc := List.append_cancel_right (hbytes.symm.trans heq)
    rw [hhead] at hoff hsize hload
    rw [← henc, hoffset] at hoff
    rw [dataSize_eq_some hsmall (by decide)] at hsize
    rw [hlength] at hload
    exact ⟨hhead, hoff, hoffLt, hsize.1, hsize.2, hload⟩
  · rintro ⟨hhead, hoff, hoffLt, hlaid, hsizeLt, hload⟩
    refine ⟨_, _, hbytes, ?_, ?_, hoffLt, ?_, ?_⟩
    · rw [hhead]
      exact h.metaEnc ha
    · rw [hhead, hoff, hoffset]
    · rw [hhead]
      exact (dataSize_eq_some hsmall (by decide)).2 ⟨hlaid, hsizeLt⟩
    · rw [hhead, hlength]
      exact hload

theorem map_infos (h : f.Written kvs tensors) :
    (readInfos f.ctx.infos).map Prod.fst = tensors.map Encoded.info := by
  rw [← h.header.infos, readInfos, List.map_map]
  rfl

theorem map_offsets (h : f.Written kvs tensors) :
    (readInfos f.ctx.infos).map Prod.snd =
      paddedOffsets defaultAlignment 0 ((tensors.map Encoded.data).map List.length) := by
  rw [← h.sizes_eq, ← h.sections_eq, ← h.laid.starts_eq, sections, List.map_map]
  rfl

/-- The tensors start where the header says, from the end of the metadata on. -/
theorem places_eq (h : f.Written kvs tensors) :
    (readInfos f.ctx.infos).map (fun t => f.placeholder + t.2) = f.starts := by
  have hadd := paddedOffsets_add defaultAlignment f.placeholder 0 (f.chunks.map List.length)
  rw [OutputFile.starts, ← Nat.add_zero f.placeholder, hadd, h.chunks, ← h.map_offsets,
    List.map_map]
  rfl

/-- With a tensor that was written, the data section starts where the padding puts it. -/
theorem offset_of_places (h : f.Written kvs tensors) (hne : f.ctx.infos ≠ [])
    (hplaces : ((readInfos f.ctx.infos).map fun t => offset + t.2) = f.starts) :
    offset = f.placeholder := by
  obtain ⟨t, infos, hcons⟩ := List.exists_cons_of_ne_nil hne
  rw [← h.places_eq, hcons] at hplaces
  exact Nat.add_right_cancel (List.cons.inj hplaces).1

theorem drop_placeholder (h : f.Written kvs tensors) :
    f.bytes.drop f.placeholder = (tensors.map Encoded.data).flatMap paddedChunk := by
  rw [h.bytes_eq, h.placeholder, List.drop_left]

theorem sizes_eq_nil_iff (h : f.Written kvs tensors) :
    (tensors.map Encoded.data).map List.length = [] ↔ f.ctx.infos = [] := by
  rw [← h.sizes_eq, writerSections, List.map_eq_nil_iff, List.map_eq_nil_iff]

theorem laid_iff (h : f.Written kvs tensors) :
    (∃ stop, Laid a 0 (sections (readInfos f.ctx.infos)) stop ∧
        stop ≤ dataBytes defaultAlignment f.ctx.infos) ↔
      PadsAgree defaultAlignment a ((tensors.map Encoded.data).map List.length) := by
  rw [laid_iff_padsAgree h.laid, h.sections_eq, h.sizes_eq]

theorem realigned_of_wellLaid (h : f.Written kvs tensors) (ha : alignment? kvs = some a)
    (hwell : f.WellLaid tensors) :
    Realigned a f.ctx.encodeMeta.length ((tensors.map Encoded.data).map List.length) := by
  obtain ⟨_, hlt, g, hread, hfinds⟩ := hwell
  obtain ⟨hhead, hoffset, hoffsetLt, hlaid, _, hload⟩ := (h.read_iff ha).1 hread
  have hplaces := hfinds.places
  rw [hhead] at hplaces
  have hstart (hsome : f.ctx.infos ≠ []) : g.offset = f.placeholder :=
    h.offset_of_places hsome hplaces
  refine ⟨hoffset ▸ hoffsetLt, ?_, h.laid_iff.1 ⟨g.size, hlaid, ?_⟩⟩
  · intro hsome
    rw [ne_eq, h.sizes_eq_nil_iff] at hsome
    rw [← hoffset, hstart hsome, h.placeholder, h.length_meta]
  · by_cases hsome : f.ctx.infos = []
    · have hzero := hlaid.stop_eq
      rw [hsome] at hzero
      exact Nat.le_trans (Nat.le_of_eq hzero) (Nat.zero_le _)
    · have hle := le_of_loadData hload
      rwa [hstart hsome, h.drop_placeholder, ← h.dataBytes_eq] at hle

/-- A reader finds the data in a data section that starts where the padding puts it. -/
theorem finds (h : f.Written kvs tensors) (hinfos : g.head.infos = readInfos f.ctx.infos)
    (hoffset : f.ctx.infos ≠ [] → g.offset = f.placeholder)
    (hlaid : Laid a 0 (sections (readInfos f.ctx.infos)) g.size) (ha : 0 < a)
    (hdata : g.data = some ((f.bytes.drop g.offset).take g.size)) : f.Finds tensors g := by
  have hfirst := h.map_infos
  by_cases hsome : f.ctx.infos = []
  · rw [hsome] at hinfos hfirst
    cases List.map_eq_nil_iff.1 hfirst.symm
    have hplaces := h.places_eq
    rw [hsome] at hplaces
    refine ⟨by rw [hinfos, hfirst], by rw [hinfos, ← hplaces]; rfl, _, hdata, ?_⟩
    rw [hinfos]
    exact .nil
  · rw [hoffset hsome, h.drop_placeholder] at hdata
    refine ⟨by rw [hinfos, hfirst], by rw [hinfos, hoffset hsome, h.places_eq], _, hdata, ?_⟩
    have hall : List.Forall₂ (fun e t =>
        DataAt ([] ++ (tensors.map Encoded.data).flatMap paddedChunk) t.2 t.1.ggmlNbytes e.data)
        tensors (readInfos f.ctx.infos) := dataAt_flatMap hfirst h.map_offsets h.sizes
    have hend : ∀ t ∈ readInfos f.ctx.infos, t.2 + t.1.ggmlNbytes ≤ g.size := fun t ht =>
      hlaid.end_le ha (t.2, t.1.ggmlNbytes) (List.mem_map_of_mem ht)
    rw [hinfos]
    refine ((List.forall₂_and_left _ _).2 ⟨hend, hall.flip⟩).flip.imp ?_
    rintro e t ⟨hle, hat⟩
    exact dataAt_take hat hle

theorem wellLaid_of_realigned (h : f.Written kvs tensors) (ha : alignment? kvs = some a)
    (hre : Realigned a f.ctx.encodeMeta.length ((tensors.map Encoded.data).map List.length)) :
    f.WellLaid tensors := by
  obtain ⟨stop, hlaid, hle⟩ := h.laid_iff.2 hre.tensors
  have hoffset (hsome : f.ctx.infos ≠ []) :
      padTo a f.ctx.encodeMeta.length = f.placeholder := by
    rw [hre.header (mt h.sizes_eq_nil_iff.1 hsome), h.placeholder, h.length_meta]
  have hfits : ¬ (f.bytes.drop (padTo a f.ctx.encodeMeta.length)).length < stop := by
    by_cases hsome : f.ctx.infos = []
    · rw [hsome] at hlaid
      cases hlaid
      exact Nat.not_lt_zero _
    · rwa [hoffset hsome, h.drop_placeholder, ← h.dataBytes_eq, Nat.not_lt]
  have hroom : (f.ctx.infos.length + 1) * tensorOverhead + padTo memAlign stop + memAlign <
      2 ^ 64 := by
    have hroom := room_of_length h.header.inv h.fileBytes_lt
    rw [h.alignment_eq] at hroom
    have h16 : memAlign ∣ dataBytes defaultAlignment f.ctx.infos :=
      Nat.dvd_trans (by decide) (h.laid.dvd_stop (Nat.dvd_zero _))
    have hmono := padTo_mono memAlign hle
    rw [padTo_of_dvd (by decide) h16] at hmono
    omega
  have hload : loadData allMemory ⟨true, false⟩ ⟨f.bytes, h.length⟩ f.ctx.infos.length
      (padTo a f.ctx.encodeMeta.length) stop =
        .ok (some ((f.bytes.drop (padTo a f.ctx.encodeMeta.length)).take stop)) := by
    rw [loadBlob_of_room hroom rfl]
    exact if_neg hfits
  have hlt := h.fileBytes_lt
  rw [WriterContext.fileBytes, h.alignment_eq] at hlt
  have hstop : stop < 2 ^ 64 := by omega
  refine ⟨h.placeholder.symm, h.length, ⟨⟨ggufVersion, kvs, a, readInfos f.ctx.infos⟩,
    padTo a f.ctx.encodeMeta.length, stop, _⟩, (h.read_iff ha).2 ⟨rfl, rfl, hre.offset, hlaid,
    hstop, hload⟩, ?_⟩
  exact h.finds rfl hoffset hlaid (Gguf.alignment_pos ha) rfl

/-- The file is well laid just where the padding is the same by the alignment that is read. -/
theorem wellLaid_iff (h : f.Written kvs tensors) (ha : alignment? kvs = some a) :
    f.WellLaid tensors ↔ Realigned a (metaBytes kvs (tensors.map Encoded.info))
      ((tensors.map Encoded.info).map TensorInfo.ggmlNbytes) := by
  have hsizes : (tensors.map Encoded.data).map List.length =
      (tensors.map Encoded.info).map TensorInfo.ggmlNbytes := by
    rw [List.map_map, List.map_map]
    exact List.map_congr_left h.sizes
  rw [← hsizes, ← h.kvs, ← h.header.infos, ← length_encodeMeta]
  exact ⟨h.realigned_of_wellLaid ha, h.wellLaid_of_realigned ha⟩

/-- Read with the default alignment, the file is well laid. -/
theorem wellLaid_of_default (h : f.Written kvs tensors)
    (ha : alignment? kvs = some defaultAlignment) : f.WellLaid tensors := by
  refine h.wellLaid_of_realigned ha ⟨?_, fun _ => rfl, padsAgree_self _ _⟩
  have hlt := h.fileBytes_lt
  rw [WriterContext.fileBytes, h.alignment_eq] at hlt
  exact Nat.lt_of_le_of_lt (Nat.le_add_right _ _) hlt

end OutputFile.Written

end Files

end ActQuant.Quantize
