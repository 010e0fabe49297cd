import ActQuant.Lib.Chars
import ActQuant.Lib.Ndarray
import ActQuant.Quant.GgmlType
import Mathlib.Tactic.Positivity

namespace ActQuant.Pi05
open ActQuant.Lib ActQuant.Quant

/-- The values of `QUANT_MAP`'s keys on the command line. -/
inductive QuantArg where
  | q8 | q4 | q2k | q3k | q4k | q5k | q6k
  deriving DecidableEq

/-- `QUANT_MAP`. -/
def QuantArg.type : QuantArg → GgmlType
  | .q8 => .q8_0
  | .q4 => .q4_0
  | .q2k => .q2_K
  | .q3k => .q3_K
  | .q4k => .q4_K
  | .q5k => .q5_K
  | .q6k => .q6_K

/-- `KQUANT_TYPES`. -/
def kquantTypes : List GgmlType := [.q2_K, .q3_K, .q4_K, .q5_K, .q6_K]

/-- The importance matrices of the vision tower, by tensor name, and what is to be quantized. -/
structure ExportArgs where
  quantLlm : Option QuantArg
  quantVision : Option QuantArg
  quantEmbedding : Option QuantArg
  quantAction : Option QuantArg
  visionImatrix : List Char → Option (Ndarray ℚ)

/-- `get_tensor_quant_type`. -/
def getTensorQuantType (args : ExportArgs) (name : List Char) (shape : List Nat) :
    Option GgmlType :=
  let guarded (special : List String) (arg : Option QuantArg) : Option GgmlType :=
    if special.any fun x => contains x name then none else arg.map QuantArg.type
  if shape.length = 1 then none
  else if startsWith "action." name then
    guarded ["norm", "timestep", "action_in", "action_out"] args.quantAction
  else if startsWith "mm." name then none
  else if startsWith "norm." name then none
  else if startsWith "embed." name then args.quantEmbedding.map QuantArg.type
  else if startsWith "pali." name then guarded ["norm"] args.quantLlm
  else if startsWith "v." name then
    guarded ["norm", "ln1", "ln2", "position_embd", "patch_embd", "post_ln"] args.quantVision
  else none

section Align

/-- The entry of a matrix, zero outside of it. -/
def entry (M : Ndarray ℚ) (i j : Nat) : ℚ := (M.at? [i, j]).getD 0

/-- The transposed matrix. -/
def transposed (rows cols : Nat) (M : Ndarray ℚ) : Ndarray ℚ :=
  .ofFn cols rows fun i j => entry M j i

/-- The least importance: a millionth of the mean of the positive entries. -/
def floorOf (aligned : Ndarray ℚ) : ℚ :=
  let pos := aligned.data.filter (0 < ·)
  if pos = [] then 1 / 10 ^ 20 else pos.sum / pos.length * (1 / 10 ^ 6)

/-- The matrix with its rows and columns cut off or padded to the shape of the weight. -/
def fit (R C rows cols : Nat) (M : Ndarray ℚ) : Ndarray ℚ :=
  let rr := min R rows
  let cc := min C cols
  .ofFn R C fun i j => if i < rr ∧ j < cc then entry M i j else 0

/-- An array of more than two dimensions of which one entry is left for the corner of the weight,
where NumPy spreads it. -/
def SpreadsOne (R C : Nat) (shape : List Nat) : Prop :=
  2 < shape.length ∧
    ∀ d ∈ min R (shape.headD 0) :: min C (shape.tail.headD 0) :: shape.drop 2, d = 1

instance (R C : Nat) (shape : List Nat) : Decidable (SpreadsOne R C shape) :=
  inferInstanceAs (Decidable (_ ∧ _))

/-- The orientation of a matrix of two dimensions is told from its shape. -/
def oriented (R C : Nat) (M : Ndarray ℚ) : Option (Ndarray ℚ) :=
  match M.shape with
  | [rows, cols] =>
    if rows = C ∧ cols = R then some (fit R C cols rows (transposed rows cols M))
    else some (fit R C rows cols M)
  | shape =>
    if SpreadsOne R C shape then
      some (.ofFn R C fun i j => if i = 0 ∧ j = 0 then M.data.headD 0 else 0)
    else none

/-- The importance that goes to the quantizer, no entry of which is below the floor. -/
def alignImatrix (R C : Nat) (M : Ndarray ℚ) : Option (Ndarray ℚ) :=
  (oriented R C M).map fun aligned => aligned.map (max · (floorOf aligned))

end Align

/-- A call of `ggml_quantize_chunk`, with the row that its output starts at. -/
structure ChunkCall where
  qtype : GgmlType
  dstRow : Nat
  src : List ℚ
  nrows : Nat
  nPerRow : Nat
  imatrix : Option (List ℚ)

inductive QuantizeError where
  | unsupported (qtype : GgmlType)
  | noDimensions
  | lastDimension (n : Nat)
  | columnLength (length nPerRow : Nat)
  | elementShape (shape : List Nat) (nrows nPerRow : Nat)
  | imatrixDims (ndim : Nat)
  | imatrixIndex

/-- How `quantize` reads an importance matrix. -/
inductive Importance where
  | absent
  | perColumn (flat : List ℚ)
  | perElement (M : Ndarray ℚ)

def classify (nrows nPerRow : Nat) : Option (Ndarray ℚ) → Except QuantizeError Importance
  | none => .ok .absent
  | some M =>
    if M.shape.length = 1 ∨ (M.shape.length = 2 ∧ M.shape.head? = some 1) then
      if M.data.length ≠ nPerRow then .error (.columnLength M.data.length nPerRow)
      else .ok (.perColumn M.data)
    else if M.shape.length = 2 then
      if M.shape ≠ [nrows, nPerRow] then .error (.elementShape M.shape nrows nPerRow)
      else .ok (.perElement M)
    else .error (.imatrixDims M.shape.length)

def rowOf (M : List ℚ) (n r : Nat) : List ℚ := (M.drop (r * n)).take n

/-- The calls of the quantizer. -/
def chunkCalls (qtype : GgmlType) (data : List ℚ) (nrows nPerRow : Nat) :
    Importance → List ChunkCall
  | .absent => [⟨qtype, 0, data, nrows, nPerRow, none⟩]
  | .perColumn flat => [⟨qtype, 0, data, nrows, nPerRow, some flat⟩]
  | .perElement M => (List.range nrows).map fun r =>
    ⟨qtype, r, rowOf data nPerRow r, 1, nPerRow, some (rowOf M.data nPerRow r)⟩

/-- `GGMLQuantizer.quantize`, up to the bytes that the calls write. -/
def quantize (data : Ndarray ℚ) (qtype : GgmlType) (imatrix : Option (Ndarray ℚ)) :
    Except QuantizeError (List ChunkCall) :=
  if qtype ∉ kquantTypes then .error (.unsupported qtype)
  else
    match data.shape.getLast? with
    | none => .error .noDimensions
    | some nPerRow =>
      if nPerRow % 256 ≠ 0 then .error (.lastDimension nPerRow)
      else
        let nrows := data.shape.dropLast.prod
        (classify nrows nPerRow imatrix).map (chunkCalls qtype data.data nrows nPerRow)

/-- What is handed to the writer: a K-quantized tensor, one of the block types of the Python
package, or the values in a float type. -/
inductive Written where
  | kQuant (qtype : GgmlType) (calls : List ChunkCall)
  | block (qtype : GgmlType) (data : Ndarray ℚ)
  | float (isF32 : Bool) (data : Ndarray ℚ)

/-- The importance matrix for a tensor of the vision tower, where there is one. -/
def imatrixFor (args : ExportArgs) (name : List Char) (data : Ndarray ℚ) :
    Except QuantizeError (Option (Ndarray ℚ)) :=
  match data.shape, args.visionImatrix name with
  | [R, C], some M =>
    if startsWith "v.blk." name ∧ endsWith ".weight" name then
      (alignImatrix R C M).elim (.error .imatrixIndex) fun imat => .ok (some imat)
    else .ok none
  | _, _ => .ok none

/-- `convert_and_write_tensor`. -/
def convertAndWriteTensor (args : ExportArgs) (f32Output : Bool) (name : List Char)
    (tensor : Ndarray ℚ) : Except QuantizeError Written :=
  match getTensorQuantType args name tensor.shape with
  | none => .ok (.float (tensor.shape.length == 1 || f32Output) tensor)
  | some qtype =>
    if qtype ∈ kquantTypes then do
      let imat ← imatrixFor args name tensor
      let calls ← quantize tensor qtype imat
      return .kQuant qtype calls
    else .ok (.block qtype tensor)

/-- The importance by which an element is quantized: that of its column, in the call of its
row. -/
def importanceAt (calls : List ChunkCall) (i j : Nat) : Option ℚ :=
  (calls.find? fun c => c.dstRow ≤ i ∧ i < c.dstRow + c.nrows).bind fun c =>
    c.imatrix.bind fun row => row[j]?

section Entries
variable {M A : Ndarray ℚ}

theorem entry_ofFn (f : Nat → Nat → ℚ) (hi : i < rows) (hj : j < cols) :
    entry (.ofFn rows cols f) i j = f i j := by
  rw [entry, Ndarray.at?_ofFn f hi hj, Option.getD_some]

theorem at?_eq_entry (hM : M.shape = [rows, cols]) (hi : i < rows) (hj : j < cols) :
    M.at? [i, j] = some (entry M i j) := by
  have hin : InShape [i, j] M.shape := hM ▸ .cons hi (.cons hj .nil)
  have hlt : ravel M.shape [i, j] < M.data.length := M.length_data ▸ ravel_lt hin
  rw [entry, Ndarray.at?_of_inShape hin, List.getElem?_eq_getElem hlt, Option.getD_some]

theorem data_eq_entry (hM : M.shape = [rows, cols]) (hi : i < rows) (hj : j < cols) :
    M.data[i * cols + j]? = some (entry M i j) := by
  have hin : InShape [i, j] M.shape := hM ▸ .cons hi (.cons hj .nil)
  have hravel : ravel M.shape [i, j] = i * cols + j := by
    simp only [hM, ravel, List.prod_cons, List.prod_nil, Nat.mul_one, Nat.add_zero]
  rw [← at?_eq_entry hM hi hj, Ndarray.at?_of_inShape hin, hravel]

theorem entry_map (f : ℚ → ℚ) (hM : M.shape = [rows, cols]) (hi : i < rows) (hj : j < cols) :
    entry (M.map f) i j = f (entry M i j) := by
  have hmap : (M.map f).shape = [rows, cols] := hM
  have hdata := data_eq_entry hmap hi hj
  rw [Ndarray.map, List.getElem?_map, data_eq_entry hM hi hj, Option.map_some] at hdata
  exact (Option.some.inj hdata).symm

/-- A matrix of the weight's own shape is taken as it is, unless that is a square. -/
theorem oriented_own (hM : M.shape = [R, C]) (hne : R ≠ C) :
    ∃ A, oriented R C M = some A ∧ A.shape = [R, C] ∧
      ∀ i < R, ∀ j < C, entry A i j = entry M i j := by
  have hshape : ¬ (R = C ∧ C = R) := fun h => hne h.1
  refine ⟨fit R C R C M, by rw [oriented, hM]; exact if_neg hshape, rfl, fun i hi j hj => ?_⟩
  rw [fit, entry_ofFn _ hi hj, Nat.min_self, Nat.min_self, if_pos ⟨hi, hj⟩]

/-- A matrix of the other shape is transposed. -/
theorem oriented_transposed (hM : M.shape = [C, R]) :
    ∃ A, oriented R C M = some A ∧ A.shape = [R, C] ∧
      ∀ i < R, ∀ j < C, entry A i j = entry M j i := by
  refine ⟨fit R C R C (transposed C R M), by rw [oriented, hM]; exact if_pos ⟨rfl, rfl⟩, rfl,
    fun i hi j hj => ?_⟩
  rw [fit, entry_ofFn _ hi hj, Nat.min_self, Nat.min_self, if_pos ⟨hi, hj⟩, transposed,
    entry_ofFn _ hi hj]

theorem floorOf_pos (A : Ndarray ℚ) : 0 < floorOf A := by
  rw [floorOf]
  split_ifs with h
  · norm_num
  · have hlen : 0 < (A.data.filter (0 < ·)).length := List.length_pos_of_ne_nil h
    have hsum : 0 < (A.data.filter (0 < ·)).sum := by
      apply List.sum_pos _ _ h
      intro x hx
      exact of_decide_eq_true (List.mem_filter.1 hx).2
    have hcast : (0 : ℚ) < (A.data.filter (0 < ·)).length := Nat.cast_pos.2 hlen
    exact mul_pos (div_pos hsum hcast) (by norm_num)

end Entries

section Calls
variable {data imat : Ndarray ℚ}

theorem getElem?_rowOf (hj : j < n) (xs : List ℚ) (r : Nat) :
    (rowOf xs n r)[j]? = xs[r * n + j]? := by
  rw [rowOf, List.getElem?_take_of_lt hj, List.getElem?_drop]

/-- The rows each have a call of their own. -/
theorem importanceAt_perElement (qtype : GgmlType) (values : List ℚ) (imat : Ndarray ℚ)
    (hi : i < nrows) (hj : j < n) :
    importanceAt (chunkCalls qtype values nrows n (.perElement imat)) i j =
      imat.data[i * n + j]? := by
  have hfind : (chunkCalls qtype values nrows n (.perElement imat)).find?
      (fun c => c.dstRow ≤ i ∧ i < c.dstRow + c.nrows) =
        some ⟨qtype, i, rowOf values n i, 1, n, some (rowOf imat.data n i)⟩ := by
    have hrange : (List.range nrows).find? ((fun c : ChunkCall =>
        decide (c.dstRow ≤ i ∧ i < c.dstRow + c.nrows)) ∘
          fun r => ⟨qtype, r, rowOf values n r, 1, n, some (rowOf imat.data n r)⟩) = some i := by
      rw [List.find?_range_eq_some]
      refine ⟨?_, List.mem_range.2 hi, fun r hr => ?_⟩
      · exact decide_eq_true ⟨le_rfl, Nat.lt_succ_self i⟩
      · have hnot : ¬ (r ≤ i ∧ i < r + 1) := by omega
        simp only [Function.comp_apply, hnot, decide_false, Bool.not_false]
    rw [chunkCalls, List.find?_map, hrange, Option.map_some]
  rw [importanceAt, hfind]
  exact getElem?_rowOf hj imat.data i

/-- A matrix of one row is flat. -/
theorem importanceAt_perColumn (qtype : GgmlType) (values flat : List ℚ) (hi : i < nrows)
    (n j : Nat) :
    importanceAt (chunkCalls qtype values nrows n (.perColumn flat)) i j = flat[j]? := by
  have hcovers : 0 ≤ i ∧ i < 0 + nrows := ⟨Nat.zero_le i, by omega⟩
  have hfind : (chunkCalls qtype values nrows n (.perColumn flat)).find?
      (fun c => c.dstRow ≤ i ∧ i < c.dstRow + c.nrows) =
        some ⟨qtype, 0, values, nrows, n, some flat⟩ :=
    List.find?_cons_of_pos (decide_eq_true hcovers)
  rw [importanceAt, hfind]
  rfl

/-- An importance matrix of the shape of the weight is used entry by entry. -/
theorem quantize_importance (hq : qtype ∈ kquantTypes) (hdata : data.shape = [R, C])
    (hC : C % 256 = 0) (himat : imat.shape = [R, C]) :
    ∃ calls, quantize data qtype (some imat) = .ok calls ∧
      ∀ i < R, ∀ j < C, importanceAt calls i j = some (entry imat i j) := by
  have hlast : data.shape.getLast? = some C := by rw [hdata]; rfl
  have hrows : data.shape.dropLast.prod = R := by rw [hdata]; exact Nat.mul_one R
  have hcalls (imp : Importance) (hclass : classify R C (some imat) = .ok imp) :
      quantize data qtype (some imat) = .ok (chunkCalls qtype data.data R C imp) := by
    rw [quantize, if_neg (not_not.2 hq), hlast]
    simp only [hC, ne_eq, not_true_eq_false, if_false, hrows, hclass]
    rfl
  by_cases hone : R = 1
  · subst hone
    have hlen : imat.data.length = C := by
      rw [imat.length_data, himat, List.prod_cons, List.prod_cons, List.prod_nil, Nat.mul_one,
        Nat.one_mul]
    have hclass : classify 1 C (some imat) = .ok (.perColumn imat.data) := by
      simp [classify, himat, hlen]
    refine ⟨_, hcalls _ hclass, fun i hi j hj => ?_⟩
    rw [importanceAt_perColumn _ _ _ hi, ← data_eq_entry himat hi hj, Nat.lt_one_iff.1 hi,
      Nat.zero_mul, Nat.zero_add]
  · have hclass : classify R C (some imat) = .ok (.perElement imat) := by
      simp [classify, himat, hone]
    refine ⟨_, hcalls _ hclass, fun i hi j hj => ?_⟩
    rw [importanceAt_perElement _ _ _ hi hj, data_eq_entry himat hi hj]

end Calls

/-- A weight of the vision tower that is K-quantized with an importance matrix. -/
structure GuidedWeight (args : ExportArgs) (name : List Char) (tensor : Ndarray ℚ) (R C : Nat)
    (qtype : GgmlType) (M : Ndarray ℚ) : Prop where
  shape : tensor.shape = [R, C]
  whole : C % 256 = 0
  type : getTensorQuantType args name tensor.shape = some qtype
  kquant : qtype ∈ kquantTypes
  block : startsWith "v.blk." name = true
  weight : endsWith ".weight" name = true
  found : args.visionImatrix name = some M

section Weight
variable {args : ExportArgs} {tensor M A : Ndarray ℚ}

theorem GuidedWeight.importance (h : GuidedWeight args name tensor R C qtype M)
    (hA : oriented R C M = some A) (hshape : A.shape = [R, C]) (f32Output : Bool) :
    ∃ calls, convertAndWriteTensor args f32Output name tensor = .ok (.kQuant qtype calls) ∧
      ∀ i < R, ∀ j < C, importanceAt calls i j = some (max (entry A i j) (floorOf A)) := by
  have himat : imatrixFor args name tensor = .ok (some (A.map (max · (floorOf A)))) := by
    simp only [imatrixFor, h.shape, h.found, h.block, h.weight, and_self, if_true, alignImatrix,
      hA, Option.map_some, Option.elim_some]
  have hmap : (A.map (max · (floorOf A))).shape = [R, C] := hshape
  obtain ⟨calls, hcalls, himp⟩ := quantize_importance h.kquant h.shape h.whole hmap
  refine ⟨calls, ?_, fun i hi j hj => ?_⟩
  · simp only [convertAndWriteTensor, h.type, h.kquant, if_true, himat]
    exact congrArg (fun r => r >>= fun calls => pure (Written.kQuant qtype calls)) hcalls
  · rw [himp i hi j hj, entry_map _ hshape hi hj]

/-- Whatever the shape is, a matrix of the transposed shape is read as the transposed one. -/
theorem GuidedWeight.importance_transposed (h : GuidedWeight args name tensor R C qtype M)
    (hM : M.shape = [C, R]) (f32Output : Bool) :
    ∃ A calls, oriented R C M = some A ∧
      convertAndWriteTensor args f32Output name tensor = .ok (.kQuant qtype calls) ∧
        ∀ i < R, ∀ j < C, importanceAt calls i j = some (max (entry M j i) (floorOf A)) := by
  obtain ⟨A, hA, hshape, hentry⟩ := oriented_transposed hM
  obtain ⟨calls, hcalls, himp⟩ := h.importance hA hshape f32Output
  exact ⟨A, calls, hA, hcalls, fun i hi j hj => by rw [himp i hi j hj, hentry i hi j hj]⟩

theorem GuidedWeight.importance_own (h : GuidedWeight args name tensor R C qtype M)
    (hM : M.shape = [R, C]) (hne : R ≠ C) (f32Output : Bool) :
    ∃ A calls, oriented R C M = some A ∧
      convertAndWriteTensor args f32Output name tensor = .ok (.kQuant qtype calls) ∧
        ∀ i < R, ∀ j < C, importanceAt calls i j = some (max (entry M i j) (floorOf A)) := by
  obtain ⟨A, hA, hshape, hentry⟩ := oriented_own hM hne
  obtain ⟨calls, hcalls, himp⟩ := h.importance hA hshape f32Output
  exact ⟨A, calls, hA, hcalls, fun i hi j hj => by rw [himp i hi j hj, hentry i hi j hj]⟩

/-- A weight that is no square is quantized with the stored importance of each element, in either
orientation, but never with less than the floor. -/
theorem imatrix_aligned (h : GuidedWeight args name tensor R C qtype M) (hne : R ≠ C)
    (f32Output : Bool) :
    (M.shape = [R, C] → ∃ A calls, oriented R C M = some A ∧
      convertAndWriteTensor args f32Output name tensor = .ok (.kQuant qtype calls) ∧
        ∀ i < R, ∀ j < C, importanceAt calls i j = some (max (entry M i j) (floorOf A))) ∧
    (M.shape = [C, R] → ∃ A calls, oriented R C M = some A ∧
      convertAndWriteTensor args f32Output name tensor = .ok (.kQuant qtype calls) ∧
        ∀ i < R, ∀ j < C, importanceAt calls i j = some (max (entry M j i) (floorOf A))) :=
  ⟨fun hM => h.importance_own hM hne f32Output, fun hM => h.importance_transposed hM f32Output⟩

end Weight

section Instances

def guidedName : List Char := "v.blk.0.attn_q.weight".toList

/-- Only the vision tower is quantized, with one matrix for all its weights. -/
def guidedBy (M : Ndarray ℚ) : ExportArgs := ⟨none, some .q4k, none, none, fun _ => some M⟩

def blank (R C : Nat) : Ndarray ℚ := .ofFn R C fun _ _ => 0

/-- All is important but for the first element. -/
def zeroCorner : Ndarray ℚ := .ofFn 2 256 fun i j => if i = 0 ∧ j = 0 then 0 else 1

/-- The importance of an element grows with its row. -/
def byRow : Ndarray ℚ := .ofFn 256 256 fun i _ => i + 1

theorem guided_blank (M : Ndarray ℚ) (R : Nat) :
    GuidedWeight (guidedBy M) guidedName (blank R 256) R 256 .q4_K M where
  shape := rfl
  whole := rfl
  type := rfl
  kquant := by decide
  block := by decide
  weight := by decide
  found := rfl

theorem imatrix_aligned_zeroCorner :
    (∃ A calls, oriented 2 256 zeroCorner = some A ∧
      convertAndWriteTensor (guidedBy zeroCorner) false guidedName (blank 2 256) =
        .ok (.kQuant .q4_K calls) ∧
          ∀ i < 2, ∀ j < 256, importanceAt calls i j =
            some (max (entry zeroCorner i j) (floorOf A))) :=
  (imatrix_aligned (guided_blank zeroCorner 2) (by decide) false).1 rfl

/-- An element without importance gets the floor, and a square matrix is transposed. -/
theorem importance_not_stored :
    (∃ calls, convertAndWriteTensor (guidedBy zeroCorner) false guidedName (blank 2 256) =
        .ok (.kQuant .q4_K calls) ∧
      importanceAt calls 0 0 ≠ some (entry zeroCorner 0 0)) ∧
    ∃ calls, convertAndWriteTensor (guidedBy byRow) false guidedName (blank 256 256) =
        .ok (.kQuant .q4_K calls) ∧
      importanceAt calls 0 1 ≠ some (entry byRow 0 1) := by
  constructor
  · obtain ⟨A, calls, _, hcalls, himp⟩ :=
      (guided_blank zeroCorner 2).importance_own rfl (by decide) false
    refine ⟨calls, hcalls, ?_⟩
    have hzero : entry zeroCorner 0 0 = 0 :=
      entry_ofFn _ (Nat.zero_lt_succ _) (Nat.zero_lt_succ _)
    rw [himp 0 (Nat.zero_lt_succ _) 0 (Nat.zero_lt_succ _), hzero, max_eq_right (floorOf_pos A).le]
    exact fun h => (floorOf_pos A).ne' (Option.some.inj h)
  · obtain ⟨A, calls, _, hcalls, himp⟩ :=
      (guided_blank byRow 256).importance_transposed rfl false
    refine ⟨calls, hcalls, ?_⟩
    have hstored : entry byRow 0 1 = 1 := by
      rw [byRow, entry_ofFn _ (by decide) (by decide)]
      norm_num
    have hread : entry byRow 1 0 = 2 := by
      rw [byRow, entry_ofFn _ (by decide) (by decide)]
      norm_num
    rw [himp 0 (by decide) 1 (by decide), hstored, hread]
    intro h
    have hle : (2 : ℚ) ≤ max 2 (floorOf A) := le_max_left _ _
    rw [Option.some.inj h] at hle
    exact absurd hle (by norm_num)

end Instances

end ActQuant.Pi05
