import ActQuant.Lib.Memo
import ActQuant.Quant.Imatrix
import ActQuant.Quant.ParallelRows

namespace ActQuant.Quant
open Lib ParallelRows

/-- An entry of the old file format. -/
structure LegacyEntry where
  name : List Char
  ncall : Int
  vals : List ℚ

def LegacyEntry.values (e : LegacyEntry) : List ℚ :=
  if 0 < e.ncall then e.vals.map (· / (e.ncall : ℚ)) else e.vals

/-- `load_legacy_imatrix`; a file without entries, or an entry without values, ends the program. -/
def loadLegacyImatrix (entries : List LegacyEntry) : Option (Dict (List Char) (List ℚ)) :=
  if entries = [] ∨ ∃ e ∈ entries, e.vals = [] then none
  else some (entries.foldl (fun d e => d.set e.name e.values) [])

/-- The two formats of an imatrix file, the old one where the file is no GGUF. -/
inductive ImatrixInput where
  | gguf (file : ImatrixFile)
  | legacy (entries : List LegacyEntry)

def ImatrixInput.load : ImatrixInput → Option (List (List Char × List ℚ))
  | .gguf file => loadImatrix file
  | .legacy entries => loadLegacyImatrix entries

/-- A tensor to be quantised, with any encoder of its rows. -/
structure ExpertTensor (α Enc : Type) where
  name : List Char
  ne0 : Nat
  ne1 : Nat
  ne2 : Nat
  f32Data : List α
  rowSize : Nat
  quantizeRow : List α → Option (List ℚ) → Enc
  validRow : Enc → Bool
  /-- A row of no values is a division by zero. -/
  ne0_pos : 0 < ne0

variable {α Enc : Type}

/-- What the tensor loop of `llama_model_quantize_impl` passes on for the matrix `i03`. -/
def matrixJob (T : ExpertTensor α Enc) (imatrix : Option Importance) (i03 : Nat) : Job α ℚ Enc :=
  let nelementsMatrix := T.ne0 * T.ne1
  let perWeight := imatrix.any (·.perWeight)
  { f32Data := T.f32Data.drop (i03 * nelementsMatrix)
    imatrix := imatrix.map fun imp =>
      imp.data.drop (if perWeight then i03 * nelementsMatrix else i03 * T.ne0)
    imatrixIsPerWeight := perWeight
    nrows := T.ne1
    nPerRow := T.ne0
    rowSize := T.rowSize
    quantizeRow := T.quantizeRow
    validRow := T.validRow }

def nthreadUse (T : ExpertTensor α Enc) (nthread : Nat) : Nat :=
  let nchunk := (T.ne0 * T.ne1 + chunkSize T.ne0 - 1) / chunkSize T.ne0
  if nthread > 1 then max 1 (min nthread nchunk) else 1

/-- A result for the matrix `i03`, under some schedule of the workers. -/
def QuantizesMatrix (T : ExpertTensor α Enc) (imatrix : Option Importance) (nthread i03 : Nat)
    (r : Option Nat × NewData Enc) : Prop :=
  LlamaTensorQuantizeImpl (matrixJob T imatrix i03) (chunkSize T.ne0) (nthreadUse T nthread) r

/-- Where the importance of a weight stands in its entry. -/
def entryIndex (T : ExpertTensor α Enc) (perWeight : Bool) (e r c : Nat) : Nat :=
  if perWeight then e * (T.ne0 * T.ne1) + r * T.ne0 + c else e * T.ne0 + c

/-- The encoding of a row, given its values and the importance of each. -/
def RowEncoded (T : ExpertTensor α Enc) (entry : List ℚ) (perWeight : Bool) (e r : Nat)
    (enc : Enc) : Prop :=
  ∃ values importance, enc = T.quantizeRow values (some importance) ∧
    ∀ c < T.ne0, values[c]? = T.f32Data[e * (T.ne0 * T.ne1) + r * T.ne0 + c]? ∧
      importance[c]? = entry[entryIndex T perWeight e r c]?

/-- The weight at expert `e`, row `r` and column `c` is encoded with its own entry. -/
def SlicesReach (T : ExpertTensor α Enc) (imatrixData : List (List Char × List ℚ))
    (tokenEmbd : List Char) (entry : List ℚ) (perWeight : Bool) : Prop :=
  ∃ imp, findImportance imatrixData tokenEmbd T.name T.ne0 T.ne1 T.ne2 = .ok (some imp) ∧
    ∀ nthread, ∀ e < T.ne2, (∃ result, QuantizesMatrix T (some imp) nthread e result) ∧
      ∀ size newData, QuantizesMatrix T (some imp) nthread e (some size, newData) →
        ∀ r < T.ne1, ∃ enc, newData.lookup r = some enc ∧ RowEncoded T entry perWeight e r enc

def ImatrixInput.sum? (name : List Char) (k : Nat) : ImatrixInput → Option ℚ
  | .gguf file => (file.lookup (name ++ ".in_sum2".toList)).bind (·.data[k]?)
  | .legacy entries => (entries.reverse.find? (·.name = name)).bind (·.vals[k]?)

/-- The count of the row that position `k` is in. -/
def ImatrixInput.count? (name : List Char) (k : Nat) : ImatrixInput → Option ℚ
  | .gguf file => (file.lookup (name ++ ".in_sum2".toList)).bind fun sums =>
      (file.lookup (name ++ ".counts".toList)).map fun counts =>
        rowCount counts (k / sums.shape.getLast?.getD 1)
  | .legacy entries => (entries.reverse.find? (·.name = name)).map fun e => (e.ncall : ℚ)

/-- Position `k` lies past the first two dimensions of the sums. -/
def ImatrixInput.pastMatrix (name : List Char) (k : Nat) : ImatrixInput → Bool
  | .gguf file => (file.lookup (name ++ ".in_sum2".toList)).any fun sums =>
      sums.shape.dropLast.getLast?.getD 1 ≤ k / sums.shape.getLast?.getD 1
  | .legacy _ => false

/-- Where something was counted, an entry is the sum over the count. -/
def Averaged (input : ImatrixInput) (name : List Char) (entry : List ℚ) : Prop :=
  ∀ k sum count, input.sum? name k = some sum → input.count? name k = some count → 0 < count →
    entry[k]? = some (sum / count)

/-- What an imatrix file is for, at one tensor. -/
structure ImatrixReaches (T : ExpertTensor α Enc) (input : ImatrixInput) (tokenEmbd : List Char)
    (imatrixData : List (List Char × List ℚ)) (entry : List ℚ) : Prop where
  perColumn : entry.length = T.ne0 * T.ne2 → SlicesReach T imatrixData tokenEmbd entry false
  perWeight : entry.length = T.ne0 * T.ne1 * T.ne2 →
    SlicesReach T imatrixData tokenEmbd entry true
  rejects : entry.length ≠ T.ne0 * T.ne2 → entry.length ≠ T.ne0 * T.ne1 * T.ne2 →
    T.name ≠ tokenEmbd →
      ∃ message, findImportance imatrixData tokenEmbd T.name T.ne0 T.ne1 T.ne2 = .error message
  averaged : Averaged input T.name entry

section Slices
variable {T : ExpertTensor α Enc} {imp : Importance} {imatrixData : List (List Char × List ℚ)}
  {tokenEmbd : List Char} {entry : List ℚ}

theorem encoding_matrixJob (T : ExpertTensor α Enc) (imp : Importance) (e r : Nat) :
    RowEncoded T imp.data imp.perWeight e r (encoding (matrixJob T (some imp) e) r) := by
  refine ⟨_, _, rfl, fun c hc => ⟨?_, ?_⟩⟩
  · simp only [matrixJob, getElem?_slice hc, List.getElem?_drop, Nat.add_assoc]
  · by_cases hper : imp.perWeight = true
    · simp only [matrixJob, Option.any_some, hper, if_true, getElem?_slice hc,
        List.getElem?_drop, entryIndex, Nat.add_assoc]
    · simp only [matrixJob, Option.any_some, if_neg hper, List.getElem?_take_of_lt hc,
        List.getElem?_drop, entryIndex]

/-- Under any schedule, the rows of a matrix are encoded with their slices of the entry. -/
theorem rowEncoded_of_quantizes (h : QuantizesMatrix T (some imp) nthread e (some size, newData))
    (hr : r < T.ne1) :
    ∃ enc, newData.lookup r = some enc ∧ RowEncoded T imp.data imp.perWeight e r enc := by
  have hquantized := quantized_of_impl (J := matrixJob T (some imp) e) T.ne0_pos h
  have hlookup := (hquantized.returns size rfl).2 r hr
  exact ⟨_, hlookup, encoding_matrixJob T imp e r⟩

/-- Under any schedule, the chunks of a matrix say with what importance its rows are encoded. -/
theorem appliedImportance_of_quantizes
    (h : QuantizesMatrix T (some imp) nthread e (some size, newData)) (hr : r < T.ne1) :
    ∃ values importance, newData.lookup r = some (T.quantizeRow values (some importance)) ∧
      ∀ c < T.ne0, importance[c]? =
        appliedImportance (matrixChunks imp T.ne0 T.ne1 nthread e) r c := by
  obtain ⟨enc, hlookup, values, importance, rfl, hreach⟩ := rowEncoded_of_quantizes h hr
  refine ⟨values, importance, hlookup, fun c hc => ?_⟩
  have hstep : 0 < chunkSize T.ne0 / T.ne0 := chunkSize_div_pos T.ne0_pos
  rw [(hreach c hc).2, matrixChunks, appliedImportance_llamaTensorQuantizeImpl _ hstep hr,
    Importance.value, List.getElem?_drop, entryIndex]
  split_ifs
  · congr 1
    omega
  · rfl

theorem quantizesMatrix_exists (imatrix : Option Importance) (nthread e : Nat) :
    ∃ result, QuantizesMatrix T imatrix nthread e result := by
  have hchunk : 0 < chunkSize T.ne0 / T.ne0 := chunkSize_div_pos T.ne0_pos
  have hfit : T.ne0 ≤ chunkSize T.ne0 := by
    by_contra hlt
    rw [Nat.div_eq_of_lt (Nat.lt_of_not_le hlt)] at hchunk
    exact absurd hchunk (Nat.lt_irrefl 0)
  exact exists_impl (J := matrixJob T imatrix e) T.ne0_pos fun _ => hfit

theorem slicesReach_perColumn (hentry : imatrixData.lookup T.name = some entry)
    (hlen : entry.length = T.ne0 * T.ne2) : SlicesReach T imatrixData tokenEmbd entry false := by
  refine ⟨⟨entry, false⟩, ?_, fun nthread e _ => ⟨quantizesMatrix_exists _ nthread e,
    fun size newData h r hr => rowEncoded_of_quantizes h hr⟩⟩
  simp only [findImportance, hentry, if_pos hlen]

theorem slicesReach_perWeight (hentry : imatrixData.lookup T.name = some entry)
    (hlen : entry.length = T.ne0 * T.ne1 * T.ne2) :
    SlicesReach T imatrixData tokenEmbd entry true := by
  by_cases hcol : entry.length = T.ne0 * T.ne2
  · -- With one row to a matrix the two lengths coincide, and so do the positions.
    have hcolumn : SlicesReach T imatrixData tokenEmbd entry false :=
      slicesReach_perColumn hentry hcol
    obtain ⟨imp, himp, hslices⟩ := hcolumn
    refine ⟨imp, himp, fun nthread e he => ⟨(hslices nthread e he).1,
      fun size newData h r hr => ?_⟩⟩
    obtain ⟨enc, hlookup, values, importance, henc, hvalues⟩ :=
      (hslices nthread e he).2 size newData h r hr
    have hone : T.ne1 = 1 := by
      rw [hcol, Nat.mul_assoc] at hlen
      have hne2 : T.ne2 = T.ne1 * T.ne2 := Nat.eq_of_mul_eq_mul_left T.ne0_pos hlen
      exact Nat.eq_of_mul_eq_mul_right (Nat.zero_lt_of_lt he) (hne2.symm.trans (Nat.one_mul _).symm)
    refine ⟨enc, hlookup, values, importance, henc, fun c hc => ?_⟩
    obtain ⟨hval, himportance⟩ := hvalues c hc
    refine ⟨hval, himportance.trans ?_⟩
    have hzero : r = 0 := by omega
    simp only [entryIndex, hone, hzero, Nat.mul_one, Nat.zero_mul, Nat.add_zero, if_true,
      Bool.false_eq_true, if_false]
  · refine ⟨⟨entry, true⟩, ?_, fun nthread e _ => ⟨quantizesMatrix_exists _ nthread e,
    fun size newData h r hr => rowEncoded_of_quantizes h hr⟩⟩
    simp only [findImportance, hentry, if_neg hcol, if_pos hlen]

theorem findImportance_rejects (hentry : imatrixData.lookup T.name = some entry)
    (hcol : entry.length ≠ T.ne0 * T.ne2) (hweight : entry.length ≠ T.ne0 * T.ne1 * T.ne2)
    (hname : T.name ≠ tokenEmbd) :
    ∃ message, findImportance imatrixData tokenEmbd T.name T.ne0 T.ne1 T.ne2 =
      .error message := by
  simp only [findImportance, hentry, if_neg hcol, if_neg hweight, if_pos hname]
  exact ⟨_, rfl⟩

end Slices

section Averages
variable {file : ImatrixFile} {entries : List LegacyEntry} {name : List Char} {entry : List ℚ}

theorem averages_getElem? {sums : Ndarray ℚ} (counts : Ndarray ℚ) (hsum : sums.data[k]? = some v) :
    (averages sums counts)[k]? =
      some (if k / sums.shape.getLast?.getD 1 < sums.shape.dropLast.getLast?.getD 1 then
        if 0 < rowCount counts (k / sums.shape.getLast?.getD 1) then
          v / rowCount counts (k / sums.shape.getLast?.getD 1)
        else 1
      else 0) := by
  rw [averages, List.getElem?_mapIdx, hsum]
  rfl

theorem loadEntry_of_loadImatrix (hload : loadImatrix file = some imatrixData)
    (hentry : imatrixData.lookup name = some entry) :
    ∃ sums counts, file.lookup (name ++ ".in_sum2".toList) = some sums ∧
      file.lookup (name ++ ".counts".toList) = some counts ∧ entry = averages sums counts := by
  have hone := lookup_mapM_eq_some hload hentry
  obtain ⟨sums, hsums, hone⟩ := Option.bind_eq_some_iff.1 hone
  obtain ⟨counts, hcounts, rfl⟩ := Option.map_eq_some_iff.1 hone
  exact ⟨sums, counts, hsums, hcounts, rfl⟩

theorem lookup_foldl_set (entries : List LegacyEntry) (name : List Char) :
    (entries.foldl (fun d e => Dict.set e.name e.values d) []).lookup name =
      (entries.reverse.find? (·.name = name)).map LegacyEntry.values := by
  induction entries using List.reverseRecOn with
  | nil => rfl
  | append_singleton entries e ih =>
    rw [List.foldl_append, List.foldl_cons, List.foldl_nil, Dict.lookup_set,
      List.reverse_append, List.reverse_singleton, List.singleton_append]
    split_ifs with hname
    · rw [List.find?_cons_of_pos (by rw [hname, decide_eq_true_eq]), Option.map_some]
    · rw [List.find?_cons_of_neg (by rw [decide_eq_true_eq]; exact Ne.symm hname), ih]

theorem entry_of_loadLegacyImatrix (hload : loadLegacyImatrix entries = some imatrixData)
    (hentry : imatrixData.lookup name = some entry) :
    ∃ e, entries.reverse.find? (·.name = name) = some e ∧ entry = e.values := by
  rw [loadLegacyImatrix] at hload
  split_ifs at hload
  cases hload
  rw [lookup_foldl_set] at hentry
  obtain ⟨e, he, rfl⟩ := Option.map_eq_some_iff.1 hentry
  exact ⟨e, he, rfl⟩

/-- Nothing but zeros is counted past the first two dimensions of the sums. -/
def NothingPastMatrix (input : ImatrixInput) (name : List Char) : Prop :=
  ∀ k sum count, input.sum? name k = some sum → input.count? name k = some count → 0 < count →
    input.pastMatrix name k = true → sum = 0

theorem averaged_gguf (hload : loadImatrix file = some imatrixData)
    (hentry : imatrixData.lookup name = some entry) :
    Averaged (.gguf file) name entry ↔ NothingPastMatrix (.gguf file) name := by
  obtain ⟨sums, counts, hsums, hcounts, rfl⟩ := loadEntry_of_loadImatrix hload hentry
  rw [Averaged, NothingPastMatrix]
  refine forall_congr' fun k => forall_congr' fun v => forall_congr' fun count =>
    imp_congr_right fun hv => imp_congr_right fun hcount => imp_congr_right fun hpos => ?_
  simp only [ImatrixInput.sum?, hsums, Option.bind_some] at hv
  simp only [ImatrixInput.count?, hsums, hcounts, Option.bind_some, Option.map_some,
    Option.some.injEq] at hcount
  simp only [ImatrixInput.pastMatrix, hsums, Option.any_some, decide_eq_true_eq]
  rw [averages_getElem? counts hv, Option.some.injEq, hcount]
  split_ifs with hrow
  · exact iff_of_true rfl fun hpast => absurd hrow (Nat.not_lt_of_le hpast)
  · rw [eq_comm, div_eq_zero_iff, or_iff_left hpos.ne']
    exact ⟨fun h _ => h, fun h => h (Nat.le_of_not_lt hrow)⟩

theorem averaged_legacy (hload : loadLegacyImatrix entries = some imatrixData)
    (hentry : imatrixData.lookup name = some entry) : Averaged (.legacy entries) name entry := by
  obtain ⟨e, he, rfl⟩ := entry_of_loadLegacyImatrix hload hentry
  intro k v count hv hcount hpos
  simp only [ImatrixInput.sum?, he, Option.bind_some] at hv
  simp only [ImatrixInput.count?, he, Option.map_some, Option.some.injEq] at hcount
  subst hcount
  rw [LegacyEntry.values, if_pos (Int.cast_pos.1 hpos), List.getElem?_map, hv, Option.map_some]

theorem averaged_iff {input : ImatrixInput} (hload : input.load = some imatrixData)
    (hentry : imatrixData.lookup name = some entry) :
    Averaged input name entry ↔ NothingPastMatrix input name := by
  cases input with
  | gguf file => exact averaged_gguf hload hentry
  | legacy entries =>
    refine iff_of_true (averaged_legacy hload hentry) fun k v count _ _ _ hpast => ?_
    cases hpast

end Averages

/-- An imatrix file reaches the weights it is for, as long as its sums are matrices. -/
theorem imatrixReaches_iff (T : ExpertTensor α Enc) (tokenEmbd : List Char) {input : ImatrixInput}
    {imatrixData : List (List Char × List ℚ)} {entry : List ℚ}
    (hload : input.load = some imatrixData) (hentry : imatrixData.lookup T.name = some entry) :
    ImatrixReaches T input tokenEmbd imatrixData entry ↔ NothingPastMatrix input T.name := by
  rw [← averaged_iff hload hentry]
  refine ⟨fun h => h.averaged, fun h => ⟨?_, ?_, ?_, h⟩⟩
  · exact slicesReach_perColumn hentry
  · exact slicesReach_perWeight hentry
  · exact findImportance_rejects hentry

section Instances

/-- Two experts of one row and two columns, whose rows are kept with their importance. -/
def twoExperts : ExpertTensor Nat (List Nat × Option (List ℚ)) where
  name := "e".toList
  ne0 := 2
  ne1 := 1
  ne2 := 2
  f32Data := [1, 2, 3, 4]
  rowSize := 4
  quantizeRow values importance := (values, importance)
  validRow _ := true
  ne0_pos := by decide

/-- The sums of the experts as rows, and as matrices of one row. -/
def imatrixOfShape (shape : List Nat) (h : shape.prod = 4) : ImatrixInput :=
  .gguf [("e.in_sum2".toList, ⟨shape, [2, 4, 6, 8], h.symm⟩),
    ("e.counts".toList, ⟨[1, 1], [2], rfl⟩)]

theorem imatrixReaches_iff_matrix :
    ∃ imatrixData entry, (imatrixOfShape [2, 2] rfl).load = some imatrixData ∧
      imatrixData.lookup twoExperts.name = some entry ∧
      ImatrixReaches twoExperts (imatrixOfShape [2, 2] rfl) [] imatrixData entry := by
  refine ⟨[("e".toList, [1, 2, 3, 4])], [1, 2, 3, 4], by decide +kernel, rfl, ?_⟩
  refine (imatrixReaches_iff twoExperts [] (by decide +kernel) rfl).2 ?_
  intro k sum count hsum _ _ hpast
  have hk : k < 4 := by
    obtain ⟨hk, _⟩ := List.getElem?_eq_some_iff.1 hsum
    exact hk
  have hrow : 2 ≤ k / 2 := of_decide_eq_true hpast
  omega

/-- Sums of three dimensions: the second expert's entries stay zero. -/
theorem not_imatrixReaches_threeDims :
    ∃ imatrixData entry, (imatrixOfShape [2, 1, 2] rfl).load = some imatrixData ∧
      imatrixData.lookup twoExperts.name = some entry ∧ entry = [1, 2, 0, 0] ∧
      ¬ ImatrixReaches twoExperts (imatrixOfShape [2, 1, 2] rfl) [] imatrixData entry := by
  refine ⟨[("e".toList, [1, 2, 0, 0])], [1, 2, 0, 0], by decide +kernel, rfl, rfl, fun h => ?_⟩
  have hthird := h.averaged 2 6 2 (by decide +kernel) (by decide +kernel) (by decide +kernel)
  exact absurd hthird (by decide +kernel)

end Instances
end ActQuant.Quant
