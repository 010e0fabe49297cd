import ActQuant.Vision.QuantizeVision

namespace ActQuant.Vision
open ActQuant.Lib ActQuant.Quant ActQuant.Gguf ActQuant.Quant.ParallelRows

variable {α Enc : Type} {s : Settings α Enc}

/-- The values encoded for a row: those of the row, and zeros behind them. -/
structure PaddedRow [Zero α] (t : Tensor α) (r padded : Nat) (values : List α) : Prop where
  length : values.length = padded
  original : ∀ c < t.ne0, values[c]? = t.data[r * t.ne0 + c]?
  zeros : ∀ c, t.ne0 ≤ c → c < padded → values[c]? = some 0

/-- A tensor of the output under its name: as it was, or every row of every slice encoded. -/
inductive TensorKept [Zero α] (s : Settings α Enc) (t : Tensor α) : OutTensor α Enc → Prop where
  | kept (originalNe0 : Nat) : TensorKept s t ⟨t.toTensorInfo, originalNe0, .kept t.data⟩
  | encoded (originalNe0 padded : Nat) (hle : t.ne0 ≤ padded) (hlen : rows.length = t.rows)
      (hrows : ∀ r < t.rows, ∃ values importance, PaddedRow t r padded values ∧
        rows[r]? = some (some (s.quantizeRow s.quantType.type values importance))) :
      TensorKept s t
        ⟨{ t.toTensorInfo with type := s.quantType.type, ne0 := padded }, originalNe0, .rows rows⟩

section Plan
variable {t : TensorInfo}

/-- A type of the table comes with the size of its blocks. -/
theorem blockSize_eq {q : QuantType} (hq : q ∈ quantTypes) :
    q.blockSize = q.type.blckSize ∧ 0 < q.blockSize ∧
      (q.type = .f32 ∨ q.type = .f16 → q.blockSize = 1) := by
  have hall : ∀ q ∈ quantTypes, q.blockSize = q.type.blckSize ∧ 0 < q.blockSize ∧
      (q.type = .f32 ∨ q.type = .f16 → q.blockSize = 1) := by decide
  exact hall q hq

theorem calcPaddedDim_dvd (blockSize dim : Nat) (hb : 0 < blockSize) :
    blockSize ∣ calcPaddedDim dim blockSize := by
  rw [calcPaddedDim]
  split_ifs with hone hmod
  · have hb1 : blockSize = 1 := by omega
    rw [hb1]
    exact Nat.one_dvd dim
  · exact Nat.dvd_of_mod_eq_zero hmod
  · exact Nat.dvd_mul_left _ _

theorem le_calcPaddedDim (dim blockSize : Nat) : dim ≤ calcPaddedDim dim blockSize := by
  rw [calcPaddedDim]
  split_ifs with hone hmod
  · exact Nat.le_refl dim
  · exact Nat.le_refl dim
  · exact le_ceilDiv_mul (by omega) dim

theorem calcPaddedDim_one (dim : Nat) : calcPaddedDim dim 1 = dim := if_pos (Nat.le_refl 1)

/-- A tensor is left alone, encoded by rows of whole blocks, or by rows filled up to such. -/
inductive PlanCases (s : Settings α Enc) (t : TensorInfo) : Prop where
  | alone (hdo : (plan s t).doQuantize = false) (hpad : isPadded s t = false)
  | native (hfloat : t.type = .f32 ∨ t.type = .f16) (hmod : t.ne0 % s.quantType.blockSize = 0)
      (hplan : plan s t = ⟨s.quantType.type, true, false, t.ne0⟩)
  | filled (hfloat : t.type = .f32 ∨ t.type = .f16) (hlt : s.quantType.blockSize < t.ne0)
      (hne : calcPaddedDim t.ne0 s.quantType.blockSize ≠ t.ne0)
      (hplan : plan s t =
        ⟨s.quantType.type, true, true, calcPaddedDim t.ne0 s.quantType.blockSize⟩)

theorem planCases (s : Settings α Enc) (t : TensorInfo) : PlanCases s t := by
  by_cases hfloat : (!shouldSkipTensor t.name && (t.type = .f32 || t.type = .f16)) = true
  · have htype : t.type = .f32 ∨ t.type = .f16 := by
      simp only [Bool.and_eq_true, Bool.or_eq_true, decide_eq_true_eq] at hfloat
      exact hfloat.2
    by_cases hshape : canQuantizeShape t s.quantType.blockSize = true
    · refine .native htype ?_ ?_
      · simp only [canQuantizeShape, Bool.and_eq_true, decide_eq_true_eq] at hshape
        exact hshape.2
      · rw [plan, if_pos hfloat, if_pos hshape]
    · by_cases hpad : (s.enablePadding && 2 ≤ t.nDims && s.quantType.blockSize < t.ne0) = true
      · by_cases hne : calcPaddedDim t.ne0 s.quantType.blockSize ≠ t.ne0
        · refine .filled htype ?_ hne ?_
          · simp only [Bool.and_eq_true, decide_eq_true_eq] at hpad
            exact hpad.2
          · rw [plan, if_pos hfloat, if_neg hshape, if_pos hpad]
            exact if_pos hne
        · have hplan : plan s t =
              ⟨t.type, false, false, calcPaddedDim t.ne0 s.quantType.blockSize⟩ := by
            rw [plan, if_pos hfloat, if_neg hshape, if_pos hpad]
            exact if_neg hne
          exact .alone (by rw [hplan]) (by rw [isPadded, hplan])
      · have hplan : plan s t = ⟨t.type, false, false, t.ne0⟩ := by
          rw [plan, if_pos hfloat, if_neg hshape, if_neg hpad]
        exact .alone (by rw [hplan]) (by rw [isPadded, hplan])
  · have hplan : plan s t = ⟨t.type, false, false, t.ne0⟩ := by rw [plan, if_neg hfloat]
    exact .alone (by rw [hplan]) (by rw [isPadded, hplan])

/-- What holds of a tensor that is encoded anew. -/
structure Reencoded (s : Settings α Enc) (t : TensorInfo) : Prop where
  float : t.type = .f32 ∨ t.type = .f16
  typeOut : (plan s t).typeOut = s.quantType.type
  blocks : s.quantType.blockSize ∣ (plan s t).paddedNe0
  le : t.ne0 ≤ (plan s t).paddedNe0
  unpadded : isPadded s t = false → (plan s t).paddedNe0 = t.ne0
  padded : isPadded s t = true → 0 < t.ne0

theorem reencoded_of_reencodes (h : reencodes s t = true) : Reencoded s t := by
  have hb := (blockSize_eq s.quantType_mem).2.1
  simp only [reencodes, Bool.and_eq_true] at h
  cases planCases s t with
  | alone hdo _ =>
    rw [hdo] at h
    cases h.1
  | native hfloat hmod hplan =>
    refine ⟨hfloat, ?_, ?_, ?_, fun _ => ?_, fun hpad => ?_⟩
    · rw [hplan]
    · rw [hplan]
      exact Nat.dvd_of_mod_eq_zero hmod
    · rw [hplan]
    · rw [hplan]
    · rw [isPadded, hplan] at hpad
      cases hpad
  | filled hfloat hlt hne hplan =>
    refine ⟨hfloat, ?_, ?_, ?_, fun hpad => ?_, fun _ => Nat.zero_lt_of_lt hlt⟩
    · rw [hplan]
    · rw [hplan]
      exact calcPaddedDim_dvd _ _ hb
    · rw [hplan]
      exact le_calcPaddedDim _ _
    · rw [isPadded, hplan] at hpad
      cases hpad

/-- A tensor is only padded to be encoded, in a type of blocks of more than one value. -/
theorem reencodes_of_isPadded (h : isPadded s t = true) : reencodes s t = true := by
  cases planCases s t with
  | alone _ hpad =>
    rw [hpad] at h
    cases h
  | native _ _ hplan =>
    rw [isPadded, hplan] at h
    cases h
  | filled hfloat _ hne hplan =>
    have htype : s.quantType.type ≠ t.type := by
      intro heq
      have hone := (blockSize_eq s.quantType_mem).2.2 (heq ▸ hfloat)
      rw [hone, calcPaddedDim_one] at hne
      exact hne rfl
    simp only [reencodes, hplan, Bool.true_and, decide_eq_true_eq]
    exact htype

end Plan

section Rows
variable {J : Job α β Enc} {newData : NewData Enc}

theorem quantizeTensorWithImatrix_eq (hn : 0 < J.nPerRow) :
    quantizeTensorWithImatrix J =
      some ((List.range J.nrows).map fun r => (r, encoding J r)) := by
  have hcalls : quantizeTensorWithImatrix J = some (chunkCalls J 0 J.nrows) := by
    rw [quantizeTensorWithImatrix, if_neg hn.ne', chunkCalls]
    split_ifs
    · simp only [Nat.zero_add]
    · rw [Nat.zero_mul]
  rw [hcalls, chunkCalls_eq hn]
  simp only [Nat.zero_add]

theorem lookup_rows (r : Nat) :
    ((List.range J.nrows).map fun r => (r, encoding J r)).lookup r =
      if r < J.nrows then some (encoding J r) else none := by
  split_ifs with hr
  · exact lookup_map_of_injective (fun _ _ h => h) (List.mem_range.2 hr)
  · refine lookup_map_eq_none fun r' hr' => ?_
    rintro rfl
    exact hr (List.mem_range.1 hr')

variable {t : Tensor α}

theorem slice_row_length (hfloat : t.type = .f32 ∨ t.type = .f16) (hr : r < t.rows) :
    (slice t.data (r * t.ne0) (r * t.ne0 + t.ne0)).length = t.ne0 := by
  refine length_slice ?_
  rw [t.data_length hfloat, ← Nat.succ_mul, Nat.mul_comm]
  exact Nat.mul_le_mul_left _ hr

theorem ne1_le_rows (t : TensorInfo) : t.ne1 ≤ t.rows := by
  rw [TensorInfo.rows, Nat.mul_assoc]
  exact Nat.le_mul_of_pos_right _ (Nat.mul_pos t.ne2_pos t.ne3_pos)

variable [Zero α] [One α]

/-- The row that is encoded is the row of the tensor, padded. -/
theorem paddedRow (h : reencodes s t.toTensorInfo = true) (hr : r < t.ne1) :
    PaddedRow t r (plan s t.toTensorInfo).paddedNe0
      (slice (quantizeJob s t).f32Data (r * (quantizeJob s t).nPerRow)
        (r * (quantizeJob s t).nPerRow + (quantizeJob s t).nPerRow)) := by
  obtain ⟨hfloat, _, _, hle, hunpadded, _⟩ := reencoded_of_reencodes h
  have hlen (i : Nat) (hi : i < t.ne1) :
      (slice t.data (i * t.ne0) (i * t.ne0 + t.ne0)).length = t.ne0 :=
    slice_row_length hfloat (hi.trans_le (ne1_le_rows _))
  by_cases hpad : isPadded s t.toTensorInfo = true
  · have hrow : slice (quantizeJob s t).f32Data (r * (quantizeJob s t).nPerRow)
        (r * (quantizeJob s t).nPerRow + (quantizeJob s t).nPerRow) =
        slice t.data (r * t.ne0) (r * t.ne0 + t.ne0) ++
          List.replicate ((plan s t.toTensorInfo).paddedNe0 - t.ne0) 0 := by
      simp only [quantizeJob, if_pos hpad, padRows]
      refine slice_flatMap_range (fun i hi => ?_) hr
      rw [List.length_append, hlen i hi, List.length_replicate, Nat.add_sub_cancel' hle]
    rw [hrow]
    refine ⟨?_, fun c hc => ?_, fun c hc hlt => ?_⟩
    · rw [List.length_append, hlen r hr, List.length_replicate, Nat.add_sub_cancel' hle]
    · rw [List.getElem?_append_left (by rwa [hlen r hr]), getElem?_slice hc]
    · rw [List.getElem?_append_right (by rwa [hlen r hr]), hlen r hr, List.getElem?_replicate,
        if_pos (Nat.sub_lt_sub_right hc hlt)]
  · have hsame := hunpadded (by simpa using hpad)
    simp only [quantizeJob, if_neg hpad, hsame]
    refine ⟨hlen r hr, fun c hc => getElem?_slice hc, fun c hc hlt => ?_⟩
    exact absurd hlt (Nat.not_lt_of_le hc)

end Rows

section Out
variable {t : Tensor α}

/-- The info of a tensor of the output. -/
def outInfo (s : Settings α Enc) (t : TensorInfo) : TensorInfo :=
  if reencodes s t then { t with type := s.quantType.type, ne0 := (plan s t).paddedNe0 } else t

theorem outInfo_name (s : Settings α Enc) (t : TensorInfo) : (outInfo s t).name = t.name := by
  rw [outInfo]
  split_ifs
  · rfl
  · rfl

theorem outInfo_wholeBlocks (t : Tensor α) : (outInfo s t.toTensorInfo).WholeBlocks := by
  obtain ⟨hblock, hpos, _⟩ := blockSize_eq s.quantType_mem
  rw [outInfo]
  split_ifs with h
  · exact ⟨hblock ▸ hpos, hblock ▸ (reencoded_of_reencodes h).blocks⟩
  · exact t.wholeBlocks

variable [Zero α] [One α]

/-- The tensor of the output, where there is one. -/
def outTensor (s : Settings α Enc) (t : Tensor α) : OutTensor α Enc where
  info := outInfo s t.toTensorInfo
  originalNe0 := if isPadded s t.toTensorInfo then t.ne0 else 0
  data :=
    if reencodes s t.toTensorInfo then
      .rows ((List.range t.rows).map fun r =>
        if r < t.ne1 then some (encoding (quantizeJob s t) r) else none)
    else .kept t.data

theorem processTensor_eq (h : reencodes s t.toTensorInfo = true → 0 < t.ne0) :
    processTensor s t = some (outTensor s t) := by
  by_cases hre : reencodes s t.toTensorInfo = true
  · have hre' := reencoded_of_reencodes hre
    have hn : 0 < (quantizeJob s t).nPerRow := (h hre).trans_le hre'.le
    rw [processTensor, if_pos hre, quantizeTensorWithImatrix_eq hn, Option.map_some, outTensor,
      outInfo, if_pos hre, if_pos hre, hre'.typeOut]
    simp only [lookup_rows]
    rfl
  · have hpad : isPadded s t.toTensorInfo ≠ true := fun hpad => hre (reencodes_of_isPadded hpad)
    rw [processTensor, if_neg hre, outTensor, outInfo, if_neg hre, if_neg hre, if_neg hpad]

theorem processTensor_eq_none (h : reencodes s t.toTensorInfo = true) (hzero : t.ne0 = 0) :
    processTensor s t = none := by
  obtain ⟨_, _, _, _, hunpadded, hpos⟩ := reencoded_of_reencodes h
  have hpad : isPadded s t.toTensorInfo = false := by
    rw [Bool.eq_false_iff]
    intro hpad
    exact (hpos hpad).ne' hzero
  have hn : (quantizeJob s t).nPerRow = 0 := (hunpadded hpad).trans hzero
  rw [processTensor, if_pos h, quantizeTensorWithImatrix, if_pos hn, Option.map_none]

omit [One α] in
theorem TensorKept.written {o : OutTensor α Enc} (h : TensorKept s t o)
    (hdata : o.data = .rows rows) (hr : r < t.rows) : ∃ enc, rows[r]? = some (some enc) := by
  cases h with
  | kept originalNe0 => cases hdata
  | encoded originalNe0 padded hle hlen hrows =>
    cases hdata
    obtain ⟨values, importance, _, hrow⟩ := hrows r hr
    exact ⟨_, hrow⟩

/-- Only the rows of the first slice are encoded. -/
theorem tensorKept_outTensor :
    TensorKept s t (outTensor s t) ↔
      (reencodes s t.toTensorInfo = true → t.ne2 = 1 ∧ t.ne3 = 1) := by
  by_cases hre : reencodes s t.toTensorInfo = true
  · have hre' := reencoded_of_reencodes hre
    have hout : outTensor s t = ⟨{ t.toTensorInfo with
          type := s.quantType.type, ne0 := (plan s t.toTensorInfo).paddedNe0 },
        if isPadded s t.toTensorInfo then t.ne0 else 0,
        .rows ((List.range t.rows).map fun r =>
          if r < t.ne1 then some (encoding (quantizeJob s t) r) else none)⟩ := by
      rw [outTensor, outInfo, if_pos hre, if_pos hre]
    simp only [hre, true_implies]
    constructor
    · intro h
      by_contra hmore
      have hpos := Nat.mul_pos t.ne2_pos t.ne3_pos
      have hne : t.ne2 * t.ne3 ≠ 1 := by
        intro hone
        exact hmore ⟨Nat.eq_one_of_mul_eq_one_right hone, Nat.eq_one_of_mul_eq_one_left hone⟩
      have hlt : t.ne1 < t.rows := by
        rw [TensorInfo.rows, Nat.mul_assoc]
        exact (Nat.lt_mul_iff_one_lt_right t.ne1_pos).2 (by omega)
      obtain ⟨enc, hrow⟩ := h.written (by rw [hout]) hlt
      rw [List.getElem?_map, List.getElem?_range hlt, Option.map_some,
        if_neg (Nat.lt_irrefl _)] at hrow
      cases hrow
    · rintro ⟨htwo, hthree⟩
      have hrows : t.rows = t.ne1 := by rw [TensorInfo.rows, htwo, hthree, Nat.mul_one, Nat.mul_one]
      rw [hout]
      refine .encoded _ _ hre'.le (by rw [List.length_map, List.length_range]) fun r hr => ?_
      have hr' : r < t.ne1 := hrows ▸ hr
      refine ⟨_, rowImatrix (quantizeJob s t) r, paddedRow hre hr', ?_⟩
      rw [List.getElem?_map, List.getElem?_range hr, Option.map_some, if_pos hr', encoding]
      simp only [quantizeJob, hre'.typeOut]
  · refine iff_of_true ?_ fun h => absurd h hre
    rw [outTensor, outInfo, if_neg hre, if_neg hre]
    exact .kept _

end Out
end ActQuant.Vision
