import ActQuant.Vision.Tensors

namespace ActQuant.Vision
open ActQuant.Lib ActQuant.Quant ActQuant.Gguf

variable {α Enc : Type}

/-- The tensors that are padded, with their first dimension. -/
def plannedPadding (s : Settings α Enc) (input : GgufFile α) : List (Bytes × Nat) :=
  (input.tensors.filter fun t => isPadded s t.toTensorInfo).map fun t => (t.name, t.ne0)

/-- The keys the tool documents: the number of padded tensors and what each of them was. -/
def documentedKeys (s : Settings α Enc) (input : GgufFile α) : List Bytes :=
  (paddingKvs (plannedPadding s input)).map Prod.fst

/-- What the quantiser is to keep of a model. -/
structure Keeps [Zero α] (s : Settings α Enc) (input : GgufFile α) (out : Output α Enc) :
    Prop where
  readable : Readable out.kvs (out.tensors.map (·.info))
  tensors : List.Forall₂ (TensorKept s) input.tensors out.tensors
  metadata : ∀ kv ∈ input.kvs, kv.1 ∉ documentedKeys s input → kv ∈ out.kvs

/-- The pairs the loop gets to: an `int` counts them. -/
def readKvs (input : GgufFile α) : Kvs := input.kvs.take (toInt input.kvs.length).toNat

/-- The pairs of the output, where all of them are carried over. -/
def plannedKvs (s : Settings α Enc) (input : GgufFile α) : Kvs :=
  input.kvs.filter (fun kv => kv.1 ∉ documentedKeys s input) ++ paddingKvs (plannedPadding s input)

def plannedInfos (s : Settings α Enc) (input : GgufFile α) : List TensorInfo :=
  input.tensors.map fun t => outInfo s t.toTensorInfo

/-- When a model can be kept. -/
structure Keepable (s : Settings α Enc) (input : GgufFile α) : Prop where
  tensors_lt : input.tensors.length < 2 ^ 31
  ne0_pos : ∀ t ∈ input.tensors, reencodes s t.toTensorInfo = true → 0 < t.ne0
  flat : ∀ t ∈ input.tensors, reencodes s t.toTensorInfo = true → t.ne2 = 1 ∧ t.ne3 = 1
  carried : ∀ kv ∈ input.kvs, kv.1 ∉ documentedKeys s input →
    kv ∈ readKvs input ∧ NulFree kv.1 ∧ Carried kv.2
  counted : ∀ kv ∈ readKvs input, Counted kv.2
  found : ∃ alignment, alignment? input.kvs = some alignment ∧
    FoundWith defaultAlignment alignment (plannedKvs s input) (plannedInfos s input)

section Documented
variable {s : Settings α Enc} {input : GgufFile α}

theorem plannedPadding_nulFree (h : e ∈ plannedPadding s input) : NulFree e.1 := by
  obtain ⟨t, _, rfl⟩ := List.mem_map.1 h
  exact t.name_nulFree

theorem paddingKey_of_mem_documentedKeys (h : key ∈ documentedKeys s input) :
    PaddingKey key := by
  obtain ⟨kv, hkv, rfl⟩ := List.mem_map.1 h
  exact paddingKey_of_mem (fun _ => plannedPadding_nulFree) hkv

theorem documentedKeys_nodup : (documentedKeys s input).Nodup := by
  apply nodup_paddingKvs
  have hsub : ((plannedPadding s input).map Prod.fst).Sublist
      (input.tensors.map (·.name)) := by
    rw [plannedPadding, List.map_map]
    exact List.filter_sublist.map _
  exact input.names_nodup.sublist hsub

theorem mem_of_mem_readKvs (h : kv ∈ readKvs input) : kv ∈ input.kvs := List.mem_of_mem_take h

theorem eq_of_key_eq {kv kv' : Bytes × KvValue} (h : kv ∈ input.kvs) (h' : kv' ∈ input.kvs)
    (hkey : kv.1 = kv'.1) : kv = kv' :=
  List.inj_on_of_nodup_map input.keys_nodup h h' hkey

end Documented

section Carries
variable {s : Settings α Enc} {input : GgufFile α}
  (h : ∀ kv ∈ input.kvs, kv.1 ∉ documentedKeys s input →
    kv ∈ readKvs input ∧ NulFree kv.1 ∧ Carried kv.2)

include h in
theorem nulFree_of_carried (hkv : kv ∈ input.kvs) : NulFree kv.1 := by
  by_cases hdoc : kv.1 ∈ documentedKeys s input
  · exact (paddingKey_of_mem_documentedKeys hdoc).nulFree
  · exact (h kv hkv hdoc).2.1

include h in
theorem copied_filter : ((readKvs input).filterMap copiedKv).filter
    (fun kv => kv.1 ∉ documentedKeys s input) =
      input.kvs.filter fun kv => kv.1 ∉ documentedKeys s input := by
  have hkvs : input.kvs.Nodup := input.keys_nodup.of_map
  rw [filter_filterMap_eq, readKvs, filter_take_eq hkvs]
  · intro kv hkv hdoc
    exact (h kv hkv (of_decide_eq_true hdoc)).1
  · intro kv hkv hdoc
    obtain ⟨_, hkey, hv⟩ := h kv (mem_of_mem_readKvs hkv) (of_decide_eq_true hdoc)
    exact copiedKv_of_carried hkey hv
  · intro kv hkv e he hdoc
    rwa [copiedKv_key he, cStr_eq_self (nulFree_of_carried h (mem_of_mem_readKvs hkv))] at hdoc

include h in
/-- Setting the pairs one by one leaves those that are not replaced, in their order. -/
theorem foldl_put_eq_plannedKvs :
    (paddingKvs (plannedPadding s input)).foldl Dict.put
      (((readKvs input).filterMap copiedKv).foldl Dict.put []) = plannedKvs s input := by
  have hsub : (((readKvs input).filterMap copiedKv).map Prod.fst).Sublist
      (input.kvs.map Prod.fst) := by
    refine (map_filterMap_sublist fun kv hkv e he => ?_).trans ((List.take_sublist _ _).map _)
    rw [copiedKv_key he, cStr_eq_self (nulFree_of_carried h (mem_of_mem_readKvs hkv))]
  have hnd := input.keys_nodup.sublist hsub
  have hnil : (([] : Kvs).map Prod.fst).Nodup := List.nodup_nil
  rw [Dict.foldl_put hnil hnd, List.filter_nil, List.nil_append,
    Dict.foldl_put hnd documentedKeys_nodup, plannedKvs, ← copied_filter h]
  congr 1
  exact List.filter_congr fun kv _ => decide_eq_decide.2 Iff.rfl

theorem findKey_plannedKvs :
    findKey (plannedKvs s input) generalAlignment = findKey input.kvs generalAlignment := by
  have hdoc (kv : Bytes × KvValue) (hdoc : kv.1 ∈ documentedKeys s input) :
      cStr kv.1 ≠ generalAlignment := by
    obtain ⟨hfree, _, hne⟩ := paddingKey_of_mem_documentedKeys hdoc
    rwa [cStr_eq_self hfree]
  have hpad : (paddingKvs (plannedPadding s input)).find?
      (fun kv => cStr kv.1 = generalAlignment) = none := by
    rw [List.find?_eq_none]
    intro kv hkv heq
    exact hdoc kv (List.mem_map_of_mem hkv) (of_decide_eq_true heq)
  rw [findKey, findKey, plannedKvs, List.find?_append, hpad, Option.or_none, List.find?_filter]
  congr 1
  funext kv
  simp only [decide_eq_true_eq, decide_eq_decide]
  exact ⟨fun h => h.2, fun h => ⟨fun hmem => hdoc kv hmem h, h⟩⟩

theorem alignment?_plannedKvs : alignment? (plannedKvs s input) = alignment? input.kvs := by
  rw [alignment?, alignment?, findKey_plannedKvs]

include h in
/-- The value of the alignment's key has been found valid when the file was read. -/
theorem checkReservedKeys_of_carried (hkv : kv ∈ input.kvs)
    (hdoc : kv.1 ∉ documentedKeys s input) : checkReservedKeys kv.1 kv.2 = true := by
  obtain ⟨_, hfree, hv⟩ := h kv hkv hdoc
  by_cases hkey : kv.1 = generalAlignment
  · have hfound : ∃ kv', findKey input.kvs generalAlignment = some kv' := by
      rw [← Option.isSome_iff_exists, findKey, List.find?_isSome]
      refine ⟨kv, hkv, ?_⟩
      rw [decide_eq_true_eq, cStr_eq_self hfree, hkey]
    obtain ⟨kv', hkv'⟩ := hfound
    have hmem' : kv' ∈ input.kvs := List.mem_of_find?_eq_some hkv'
    have hkey' : kv'.1 = generalAlignment := by
      have heq := List.find?_some hkv'
      rwa [decide_eq_true_eq, cStr_eq_self (nulFree_of_carried h hmem')] at heq
    obtain rfl : kv = kv' := eq_of_key_eq hkv hmem' (hkey.trans hkey'.symm)
    have haligned := input.aligned
    rw [alignment?, hkv', Option.isSome_map] at haligned
    obtain ⟨v, hv'⟩ := Option.isSome_iff_exists.1 haligned
    obtain ⟨hu32, hvalid⟩ := Option.filter_eq_some_iff.1 hv'
    rcases KvValue.eq_of_valU32 hu32 with hval | hval
    · rw [hval]
      simp only [checkReservedKeys, hvalid, Bool.or_true]
    · rw [hval] at hv
      cases hv
  · unfold checkReservedKeys
    split
    · simp only [hkey, ne_eq, not_false_eq_true, decide_true, Bool.true_or]
    · exact decide_eq_true hkey

include h in
theorem copyable_of_carried (hkv : kv ∈ readKvs input) (hcounted : Counted kv.2) :
    Copyable kv := by
  have hmem := mem_of_mem_readKvs hkv
  have hfree := nulFree_of_carried h hmem
  refine ⟨hcounted, fun v hv => ?_⟩
  by_cases hdoc : kv.1 ∈ documentedKeys s input
  · obtain ⟨_, hnil, hne⟩ := paddingKey_of_mem_documentedKeys hdoc
    exact settable_of_ne_alignment hfree hnil hne v
  · obtain ⟨_, _, hcarried⟩ := h kv hmem hdoc
    rw [(copiedValue_eq_self_iff kv.2).2 hcarried] at hv
    cases hv
    rw [Settable, cStr_eq_self hfree]
    exact ⟨checkReservedKeys_of_carried h hmem hdoc, input.keys_ne_nil kv hmem⟩

end Carries

section Planned
variable {s : Settings α Enc} {input : GgufFile α}

/-- A pair of the output that is not about padding was set for one of the input. -/
theorem exists_of_mem_foldl_put (h : kv ∈ (paddingKvs (plannedPadding s input)).foldl Dict.put
      (((readKvs input).filterMap copiedKv).foldl Dict.put []))
    (hdoc : kv.1 ∉ documentedKeys s input) : ∃ kv' ∈ readKvs input, copiedKv kv' = some kv := by
  rcases Dict.mem_of_mem_foldl_put h with h | h
  · rcases Dict.mem_of_mem_foldl_put h with h | h
    · cases h
    · exact List.mem_filterMap.1 h
  · exact absurd (List.mem_map_of_mem h) hdoc

/-- Where every pair of the input comes out again, each one is carried over. -/
theorem carried_of_metadata (h : ∀ kv ∈ input.kvs, kv.1 ∉ documentedKeys s input →
      kv ∈ (paddingKvs (plannedPadding s input)).foldl Dict.put
        (((readKvs input).filterMap copiedKv).foldl Dict.put [])) :
    ∀ kv ∈ input.kvs, kv.1 ∉ documentedKeys s input →
      kv ∈ readKvs input ∧ NulFree kv.1 ∧ Carried kv.2 := by
  have hfree : ∀ kv ∈ input.kvs, NulFree kv.1 := by
    intro kv hkv
    by_cases hdoc : kv.1 ∈ documentedKeys s input
    · exact (paddingKey_of_mem_documentedKeys hdoc).nulFree
    · obtain ⟨kv', _, hcopied⟩ := exists_of_mem_foldl_put (h kv hkv hdoc) hdoc
      rw [copiedKv_key hcopied]
      exact nulFree_cStr _
  intro kv hkv hdoc
  obtain ⟨kv', hkv', hcopied⟩ := exists_of_mem_foldl_put (h kv hkv hdoc) hdoc
  have hmem' := mem_of_mem_readKvs hkv'
  have hkey := copiedKv_key hcopied
  rw [cStr_eq_self (hfree kv' hmem')] at hkey
  obtain rfl : kv = kv' := eq_of_key_eq hkv hmem' hkey
  refine ⟨hkv', hfree kv hkv, (copiedValue_eq_self_iff kv.2).1 ?_⟩
  obtain ⟨v, hv, heq⟩ := Option.map_eq_some_iff.1 hcopied
  rw [Option.join_eq_some_iff] at hv
  rw [hv, ← heq]

theorem readable_planned (h : ∃ alignment, alignment? input.kvs = some alignment ∧
      FoundWith defaultAlignment alignment (plannedKvs s input) (plannedInfos s input)) :
    Readable (plannedKvs s input) (plannedInfos s input) := by
  refine ⟨?_, ?_, ?_, ?_⟩
  · rw [plannedKvs, List.map_append]
    refine (input.keys_nodup.sublist (List.filter_sublist.map _)).append documentedKeys_nodup ?_
    intro key hkey hdoc
    obtain ⟨kv, hkv, rfl⟩ := List.mem_map.1 hkey
    have hnot := List.of_mem_filter hkv
    rw [decide_eq_true_eq] at hnot
    exact hnot hdoc
  · rw [plannedInfos, List.map_map]
    have hnames : TensorInfo.name ∘ (fun t : Tensor α => outInfo s t.toTensorInfo) =
        fun t => t.name := funext fun t => outInfo_name s t.toTensorInfo
    rw [hnames]
    exact input.names_nodup
  · intro info hinfo
    obtain ⟨t, _, rfl⟩ := List.mem_map.1 hinfo
    exact outInfo_wholeBlocks t
  · rwa [alignment?_plannedKvs]

end Planned

section Run
variable [Zero α] [One α] {s : Settings α Enc} {input : GgufFile α} {out : Output α Enc}

theorem mapM_processTensor {ts : List (Tensor α)} {outs : List (OutTensor α Enc)} :
    ts.mapM (processTensor s) = some outs ↔
      (∀ t ∈ ts, reencodes s t.toTensorInfo = true → 0 < t.ne0) ∧ outs = ts.map (outTensor s) := by
  constructor
  · intro h
    have hpos : ∀ t ∈ ts, reencodes s t.toTensorInfo = true → 0 < t.ne0 := by
      intro t ht hre
      by_contra hzero
      have hnone := processTensor_eq_none hre (Nat.eq_zero_of_not_pos hzero)
      rw [mapM_eq_none ht hnone] at h
      cases h
    rw [mapM_eq_some_map fun t ht => processTensor_eq (hpos t ht)] at h
    exact ⟨hpos, (Option.some.inj h).symm⟩
  · rintro ⟨hpos, rfl⟩
    exact mapM_eq_some_map fun t ht => processTensor_eq (hpos t ht)

/-- The padding that is recorded is the one that was planned. -/
theorem recorded_eq_plannedPadding :
    ((input.tensors.map (outTensor s)).filter (0 < ·.originalNe0)).map
      (fun t => (t.info.name, t.originalNe0)) = plannedPadding s input := by
  rw [List.filter_map, List.map_map, plannedPadding]
  have hfilter : input.tensors.filter ((fun o => decide (0 < o.originalNe0)) ∘ outTensor s) =
      input.tensors.filter fun t => isPadded s t.toTensorInfo := by
    refine List.filter_congr fun t _ => ?_
    by_cases hpad : isPadded s t.toTensorInfo = true
    · have hpos := (reencoded_of_reencodes (reencodes_of_isPadded hpad)).padded hpad
      simp only [Function.comp_apply, outTensor, hpad, if_true, hpos, decide_true]
    · rw [Bool.not_eq_true] at hpad
      simp [Function.comp_apply, outTensor, hpad]
  rw [hfilter]
  refine List.map_congr_left fun t ht => ?_
  have hpad := List.of_mem_filter ht
  rw [Function.comp_apply, outTensor, if_pos hpad, outInfo_name]

theorem quantizeVision_eq_some (hlt : input.tensors.length < 2 ^ 31) :
    quantizeVision s input = some out ↔
      (∀ t ∈ input.tensors, reencodes s t.toTensorInfo = true → 0 < t.ne0) ∧
      (∀ kv ∈ readKvs input, Copyable kv) ∧
      out = ⟨(paddingKvs (plannedPadding s input)).foldl Dict.put
          (((readKvs input).filterMap copiedKv).foldl Dict.put []),
        input.tensors.map (outTensor s)⟩ := by
  rw [quantizeVision, (take_toInt _).2 hlt, Option.bind_eq_some_iff]
  simp only [mapM_processTensor, Option.bind_eq_some_iff, Option.map_eq_some_iff]
  constructor
  · rintro ⟨tensors, ⟨hpos, rfl⟩, kvs, hkvs, kvs', hpad, rfl⟩
    rw [recorded_eq_plannedPadding,
      foldlM_paddingKvs fun e he => plannedPadding_nulFree he] at hpad
    obtain ⟨hcopy, rfl⟩ := (foldlM_copyKv []).1 hkvs
    cases hpad
    exact ⟨hpos, hcopy, rfl⟩
  · rintro ⟨hpos, hcopy, rfl⟩
    refine ⟨_, ⟨hpos, rfl⟩, _, (foldlM_copyKv []).2 ⟨hcopy, rfl⟩, _, ?_, rfl⟩
    rw [recorded_eq_plannedPadding, foldlM_paddingKvs fun e he => plannedPadding_nulFree he]
    rfl

theorem length_tensors (h : quantizeVision s input = some out) :
    out.tensors.length ≤ (toInt input.tensors.length).toNat := by
  obtain ⟨tensors, htensors, h⟩ := Option.bind_eq_some_iff.1 h
  obtain ⟨kvs, _, h⟩ := Option.bind_eq_some_iff.1 h
  obtain ⟨kvs', _, rfl⟩ := Option.map_eq_some_iff.1 h
  rw [length_of_mapM htensors, List.length_take]
  exact Nat.min_le_left _ _

theorem map_outTensor_info :
    (input.tensors.map (outTensor s)).map (·.info) = plannedInfos s input := by
  rw [List.map_map]
  rfl

/-- The tool keeps a model exactly when the tensors it encodes are matrices, every pair has a
case that copies it whole, and the alignment asked for is the one that is used. -/
theorem keeps_iff_keepable (s : Settings α Enc) (input : GgufFile α) :
    (∃ out, quantizeVision s input = some out ∧ Keeps s input out) ↔ Keepable s input := by
  constructor
  · rintro ⟨out, hout, hreadable, htensors, hmetadata⟩
    have hlt : input.tensors.length < 2 ^ 31 := by
      rw [← le_toNat_toInt]
      exact htensors.length_eq.le.trans (length_tensors hout)
    obtain ⟨hpos, hcopy, rfl⟩ := (quantizeVision_eq_some hlt).1 hout
    have hcarried := carried_of_metadata hmetadata
    rw [foldl_put_eq_plannedKvs hcarried, map_outTensor_info] at hreadable
    rw [List.forall₂_map_right_iff, List.forall₂_same] at htensors
    refine ⟨hlt, hpos, fun t ht => ?_, hcarried, fun kv hkv => (hcopy kv hkv).1, ?_⟩
    · exact tensorKept_outTensor.1 (htensors t ht)
    · have hfound := hreadable.found
      rwa [alignment?_plannedKvs] at hfound
  · intro h
    have hcopy : ∀ kv ∈ readKvs input, Copyable kv :=
      fun kv hkv => copyable_of_carried h.carried hkv (h.counted kv hkv)
    refine ⟨_, (quantizeVision_eq_some h.tensors_lt).2 ⟨h.ne0_pos, hcopy, rfl⟩, ?_, ?_, ?_⟩
    · rw [foldl_put_eq_plannedKvs h.carried, map_outTensor_info]
      exact readable_planned h.found
    · rw [List.forall₂_map_right_iff, List.forall₂_same]
      exact fun t ht => tensorKept_outTensor.2 (h.flat t ht)
    · intro kv hkv hdoc
      rw [foldl_put_eq_plannedKvs h.carried, plannedKvs, List.mem_append, List.mem_filter]
      exact .inl ⟨hkv, decide_eq_true hdoc⟩

end Run

section Instances

def q8_0 : Settings Nat (List Nat) where
  quantType := ⟨"Q8_0", .q8_0, 32⟩
  quantType_mem := mem_of_findQuantType "q8_0" (by decide)
  enablePadding := true
  imatrixMap := []
  quantizeRow _ values _ := values

/-- A tensor of two slices, of one row each. -/
def twoSlices : GgufFile Nat where
  kvs := []
  tensors :=
    [{ name := bytes "v.weight"
       type := .f32
       ne0 := 32
       ne1 := 1
       ne2 := 2
       ne3 := 1
       ne1_pos := Nat.one_pos
       ne2_pos := Nat.two_pos
       ne3_pos := Nat.one_pos
       data := List.range 64
       name_nulFree := by unfold NulFree; decide
       wholeBlocks := by unfold TensorInfo.WholeBlocks; decide
       data_length := fun _ => List.length_range }]
  keys_nodup := by decide
  keys_ne_nil := by decide
  names_nodup := by decide
  aligned := by decide

/-- A file with a number of 64 bits. -/
def parameterCount : GgufFile Nat where
  kvs := [(bytes "general.parameter_count", .scalar .uint64 (5 : UInt64))]
  tensors := []
  keys_nodup := by decide
  keys_ne_nil := by decide
  names_nodup := by decide
  aligned := by decide

/-- Of two slices the second is never written, and a number of 64 bits is dropped. -/
theorem not_keeps_twoSlices_parameterCount :
    (∃ out, quantizeVision q8_0 twoSlices = some out ∧ ¬ Keeps q8_0 twoSlices out) ∧
      ∃ out, quantizeVision q8_0 parameterCount = some out ∧ ¬ Keeps q8_0 parameterCount out := by
  constructor
  · have hrun : quantizeVision q8_0 twoSlices = some ⟨[], twoSlices.tensors.map (outTensor q8_0)⟩ :=
      (quantizeVision_eq_some (by decide)).2
        ⟨by decide, fun kv hkv => absurd hkv List.not_mem_nil, rfl⟩
    refine ⟨_, hrun, fun hkeeps => ?_⟩
    have htensors := hkeeps.tensors
    rw [List.forall₂_map_right_iff, List.forall₂_same] at htensors
    have hflat := tensorKept_outTensor.1 (htensors _ (.head _)) (by decide)
    exact absurd hflat.1 (by decide)
  · refine ⟨⟨[], []⟩, rfl, fun hkeeps => ?_⟩
    have hmem := hkeeps.metadata _ (.head _) (by decide)
    cases hmem

end Instances
end ActQuant.Vision
