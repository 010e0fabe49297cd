import ActQuant.Lib.Chars
import ActQuant.Lib.Lists
import ActQuant.Lib.Ndarray
import ActQuant.Lib.Partition
import Mathlib.Data.List.Dedup

namespace ActQuant.Quant
open Lib

abbrev ImatrixFile := List (List Char × Ndarray ℚ)

/-- The tensor that an entry of the file belongs to. -/
def entryName (name : List Char) : Option (List Char) :=
  stripSuffix ".in_sum2" name <|> stripSuffix ".counts" name

/-- The count of a row: its own, or the one there is for all of them. -/
def rowCount (counts : Ndarray ℚ) (j : Nat) : ℚ :=
  counts.data.getD (if counts.data.length > 1 then j else 0) 0

/-- Row `j` of the sums over its count, or all ones where nothing was counted; the rows past the
first matrix keep the zeros of the resize. -/
def averages (sums counts : Ndarray ℚ) : List ℚ :=
  let ne0 := sums.shape.getLast?.getD 1
  let ne1 := sums.shape.dropLast.getLast?.getD 1
  sums.data.mapIdx fun p v =>
    if p / ne0 < ne1 then
      let count := rowCount counts (p / ne0)
      if count > 0 then v / count else 1
    else 0

/-- The entry read for a tensor; sums without counts, or counts without sums, end the program. -/
def loadEntry (file : ImatrixFile) (name : List Char) : Option (List ℚ) :=
  (file.lookup (name ++ ".in_sum2".toList)).bind fun sums =>
    (file.lookup (name ++ ".counts".toList)).map fun counts => averages sums counts

/-- `load_imatrix`. -/
def loadImatrix (file : ImatrixFile) : Option (List (List Char × List ℚ)) :=
  (file.filterMap fun t => entryName t.1).dedup.mapM fun name =>
    (loadEntry file name).map fun e => (name, e)

/-- The importance of a tensor, and whether it holds a value for each weight. -/
structure Importance where
  data : List ℚ
  perWeight : Bool

/-- The choice `llama_model_quantize_impl` makes by the entry's size; another size is an error
for all tensors but the token embeddings. -/
def findImportance (imatrixData : List (List Char × List ℚ)) (tokenEmbd name : List Char)
    (ne0 ne1 ne2 : Nat) : Except String (Option Importance) :=
  match imatrixData.lookup name with
  | none => .ok none
  | some e =>
    let size := e.length
    let expected := ne0 * ne2
    let text := String.ofList name
    if size = expected then .ok (some ⟨e, false⟩)
    else if size = ne0 * ne1 * ne2 then .ok (some ⟨e, true⟩)
    else if name ≠ tokenEmbd then
      .error s!"imatrix size {size} is different from tensor size {expected} for {text}"
    else .ok none

/-- A call of `ggml_quantize_chunk`: some rows, all with one list of column weights. -/
structure Chunk where
  firstRow : Nat
  nrows : Nat
  imatrix : List ℚ

/-- The calls for some rows: one for each row when every weight has its own importance. -/
def rowChunks (imp : Importance) (nPerRow firstRow nrow : Nat) : List Chunk :=
  if imp.perWeight then
    (List.range nrow).map fun r => ⟨firstRow + r, 1, imp.data.drop ((firstRow + r) * nPerRow)⟩
  else [⟨firstRow, nrow, imp.data⟩]

/-- `llama_tensor_quantize_impl`; with several threads, in whatever order these take the rows. -/
def llamaTensorQuantizeImpl (imp : Importance) (chunkSize nrows nPerRow nthread : Nat) :
    List Chunk :=
  if nthread < 2 then rowChunks imp nPerRow 0 nrows
  else
    let nrowsPerChunk := chunkSize / nPerRow
    (List.range ((nrows + nrowsPerChunk - 1) / nrowsPerChunk)).flatMap fun i =>
      rowChunks imp nPerRow (i * nrowsPerChunk)
        (min (nrows - i * nrowsPerChunk) nrowsPerChunk)

def minChunkSize : Nat := 32 * 512

def chunkSize (nPerRow : Nat) : Nat :=
  if nPerRow ≥ minChunkSize then nPerRow
  else nPerRow * ((minChunkSize + nPerRow - 1) / nPerRow)

/-- The calls for one matrix of a tensor, its importance cut out of the tensor's. -/
def matrixChunks (imp : Importance) (ne0 ne1 nthread i03 : Nat) : List Chunk :=
  let nchunk := (ne0 * ne1 + chunkSize ne0 - 1) / chunkSize ne0
  let nthreadUse := if nthread > 1 then max 1 (min nthread nchunk) else 1
  let offset := if imp.perWeight then i03 * (ne0 * ne1) else i03 * ne0
  llamaTensorQuantizeImpl ⟨imp.data.drop offset, imp.perWeight⟩ (chunkSize ne0) ne1 ne0 nthreadUse

/-- The importance a weight is quantised with. -/
def appliedImportance (chunks : List Chunk) (row col : Nat) : Option ℚ :=
  (chunks.find? fun c => c.firstRow ≤ row ∧ row < c.firstRow + c.nrows).bind (·.imatrix[col]?)

section Applied
variable {imp : Importance} {nPerRow : Nat}

theorem appliedImportance_eq {chunks : List Chunk} {v : Option ℚ}
    (hall : ∀ c ∈ chunks, c.firstRow ≤ row → row < c.firstRow + c.nrows → c.imatrix[col]? = v)
    (hex : ∃ c ∈ chunks, c.firstRow ≤ row ∧ row < c.firstRow + c.nrows) :
    appliedImportance chunks row col = v := by
  obtain ⟨c₀, hc₀, hcover⟩ := hex
  rw [appliedImportance]
  cases hf : chunks.find? fun c => decide (c.firstRow ≤ row ∧ row < c.firstRow + c.nrows) with
  | none =>
    have hno := List.find?_eq_none.1 hf c₀ hc₀
    exact absurd (decide_eq_true hcover) hno
  | some c =>
    have hc : c.firstRow ≤ row ∧ row < c.firstRow + c.nrows := by
      have hsome := List.find?_some hf
      exact of_decide_eq_true hsome
    rw [Option.bind_some]
    exact hall c (List.mem_of_find?_eq_some hf) hc.1 hc.2

/-- The value meant for a weight: its own, or its column's. -/
def Importance.value (imp : Importance) (nPerRow row col : Nat) : Option ℚ :=
  imp.data[if imp.perWeight then row * nPerRow + col else col]?

theorem value_of_mem_rowChunks (hc : c ∈ rowChunks imp nPerRow firstRow nrow)
    (hlo : c.firstRow ≤ row) (hhi : row < c.firstRow + c.nrows) (col : Nat) :
    c.imatrix[col]? = imp.value nPerRow row col := by
  rw [Importance.value]
  by_cases hper : imp.perWeight = true
  · rw [rowChunks, if_pos hper] at hc
    obtain ⟨r, _, rfl⟩ := List.mem_map.1 hc
    have hrow : row = firstRow + r := by simp only at hlo hhi; omega
    rw [if_pos hper, hrow, List.getElem?_drop]
  · rw [rowChunks, if_neg hper] at hc
    rw [List.mem_singleton.1 hc, if_neg hper]

theorem rowChunks_cover (imp : Importance) (nPerRow : Nat) (hlo : firstRow ≤ row)
    (hhi : row < firstRow + nrow) :
    ∃ c ∈ rowChunks imp nPerRow firstRow nrow,
      c.firstRow ≤ row ∧ row < c.firstRow + c.nrows := by
  by_cases hper : imp.perWeight = true
  · rw [rowChunks, if_pos hper]
    refine ⟨_, List.mem_map.2 ⟨row - firstRow, List.mem_range.2 (by omega), rfl⟩, ?_, ?_⟩
    · change firstRow + (row - firstRow) ≤ row
      omega
    · change row < firstRow + (row - firstRow) + 1
      omega
  · rw [rowChunks, if_neg hper]
    exact ⟨_, List.mem_singleton.2 rfl, hlo, hhi⟩

/-- However the rows are shared out, a weight is quantised with the value meant for it. -/
theorem appliedImportance_llamaTensorQuantizeImpl (imp : Importance) (hstep : 0 < size / nPerRow)
    (hrow : row < nrows) (nthread col : Nat) :
    appliedImportance (llamaTensorQuantizeImpl imp size nrows nPerRow nthread) row col =
      imp.value nPerRow row col := by
  by_cases hthread : nthread < 2
  · rw [llamaTensorQuantizeImpl, if_pos hthread]
    apply appliedImportance_eq
    · intro c hc hlo hhi
      exact value_of_mem_rowChunks hc hlo hhi col
    · exact rowChunks_cover imp nPerRow (Nat.zero_le _) (by omega)
  · rw [llamaTensorQuantizeImpl, if_neg hthread]
    generalize size / nPerRow = step at hstep
    apply appliedImportance_eq
    · intro c hc hlo hhi
      obtain ⟨i, _, hc⟩ := List.mem_flatMap.1 hc
      exact value_of_mem_rowChunks hc hlo hhi col
    · have hmod := Nat.mod_lt row hstep
      have hdiv := Nat.div_add_mod row step
      rw [Nat.mul_comm] at hdiv
      have hi : row / step < (nrows + step - 1) / step := by
        by_contra hge
        have hmul := Nat.mul_le_mul_right step (Nat.le_of_not_lt hge)
        have hcover := le_ceilDiv_mul hstep nrows
        omega
      obtain ⟨c, hc, hcov⟩ : ∃ c ∈ rowChunks imp nPerRow (row / step * step)
          (min (nrows - row / step * step) step), c.firstRow ≤ row ∧ row < c.firstRow + c.nrows :=
        rowChunks_cover imp nPerRow (by omega) (by omega)
      exact ⟨c, List.mem_flatMap.2 ⟨_, List.mem_range.2 hi, hc⟩, hcov⟩

theorem chunkSize_div_pos (h : 0 < nPerRow) : 0 < chunkSize nPerRow / nPerRow := by
  apply Nat.div_pos _ h
  rw [chunkSize]
  split
  · exact le_rfl
  · apply Nat.le_mul_of_pos_right
    apply Nat.div_pos _ h
    simp only [minChunkSize]
    omega

theorem appliedImportance_matrixChunks (imp : Importance) (hcol : col < ne0) (hrow : row < ne1)
    (nthread : Nat) :
    appliedImportance (matrixChunks imp ne0 ne1 nthread 0) row col = imp.value ne0 row col := by
  have hstep : 0 < chunkSize ne0 / ne0 := chunkSize_div_pos (by omega)
  rw [matrixChunks, appliedImportance_llamaTensorQuantizeImpl _ hstep hrow]
  simp only [Nat.zero_mul, ite_self, List.drop_zero]

end Applied
end ActQuant.Quant
