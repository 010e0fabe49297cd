import ActQuant.Lib.Dict
import ActQuant.Lib.Outcome
import ActQuant.Pi05.ExportTables
import ActQuant.Pi05.VisionImatrix
import Mathlib.Algebra.BigOperators.Ring.List

namespace ActQuant.Pi05
open ActQuant.Lib ActQuant.Quant

section Plan

def component (name : List Char) : String :=
  if startsWith "embed." name then "Embedding"
  else if startsWith "pali." name then "LLM"
  else if startsWith "v." name then "Vision"
  else if startsWith "action." name then "Action"
  else if startsWith "mm." name then "Projector"
  else if startsWith "norm." name then "Norm"
  else "Other"

/-- The keys of `stats`, each with the type it stands for. -/
def announcedTypes : List (String × GgmlType) :=
  [("Q8_0", .q8_0), ("Q4_0", .q4_0), ("Q2_K", .q2_K), ("Q3_K", .q3_K), ("Q4_K", .q4_K),
   ("Q5_K", .q5_K), ("Q6_K", .q6_K), ("FP16", .f16), ("FP32", .f32)]

/-- `qtype.name`. -/
def qtypeName (qtype : GgmlType) : String := qtype.traits.typeName.toUpper

/-- A line of the plan, and the error that is kept for the end. -/
structure PlanLine where
  component : String
  name : List Char
  shape : List Nat
  dtypeStr : String
  reason : String
  error : Option String

def errorText (name : List Char) (shape : List Nat) : String :=
  let text := String.ofList name
  let dims := tupleText shape
  s!"  ERROR: {text} shape {dims} last dim not divisible by 32"

/-- Why a tensor of more or fewer dimensions than one is left alone. -/
def skipReason (args : ExportArgs) (name : List Char) : String :=
  if startsWith "action." name then
    if args.quantAction.isSome then "(protected)" else "(no quant flag)"
  else if startsWith "mm." name then "(excluded)"
  else if startsWith "norm." name then "(excluded)"
  else "(no quant flag)"

/-- The body of the loop of `print_quant_plan`. -/
def planLine (args : ExportArgs) (name : List Char) (shape : List Nat) :
    Except String PlanLine :=
  match getTensorQuantType args name shape with
  | some qtype =>
    match shape.getLast? with
    | none => .error "tuple index out of range"
    | some last =>
      .ok ⟨component name, name, shape, qtypeName qtype, "",
        if last % 32 ≠ 0 then some (errorText name shape) else none⟩
  | none =>
    if shape.length = 1 then .ok ⟨component name, name, shape, "FP32", "(1D, skip)", none⟩
    else .ok ⟨component name, name, shape, "FP16", skipReason args name, none⟩

structure QuantPlan where
  lines : List PlanLine
  errors : List String
  stats : Dict String Nat

/-- `print_quant_plan`. -/
def printQuantPlan (args : ExportArgs) (tensorNamesShapes : List (List Char × List Nat)) :
    Except String QuantPlan :=
  (tensorNamesShapes.mapM fun t => planLine args t.1 t.2).map fun lines =>
    { lines
      errors := lines.filterMap (·.error)
      stats := lines.foldl (fun stats line =>
        Dict.set line.dtypeStr ((stats.lookup line.dtypeStr).getD 0 + 1) stats)
          (announcedTypes.map fun t => (t.1, 0)) }

/-- The plan reports an error for the tensor of a name. -/
def QuantPlan.ReportsError (plan : QuantPlan) (name : List Char) : Prop :=
  ∃ line ∈ plan.lines, line.name = name ∧ line.error.isSome = true

/-- The plan announces a type for the tensor of a name. -/
def QuantPlan.Announces (plan : QuantPlan) (name : List Char) (type : GgmlType) : Prop :=
  ∃ line ∈ plan.lines, line.name = name ∧ announcedTypes.lookup line.dtypeStr = some type

end Plan

section Write

inductive WriteError where
  | quantize (error : QuantizeError)
  | sizeMismatch (expected got : Nat)
  | raised (text : String)

/-- The tensors that the writer has, by name and type. -/
abbrev GgufWriter := List (List Char × GgmlType)

/-- `add_tensor`; the shape is one in bytes where the tensor is quantised. -/
def addTensor (w : GgufWriter) (name : List Char) (type : GgmlType)
    (byteShape : Option (List Nat)) : Except WriteError GgufWriter :=
  let text := String.ofList name
  if (w.map Prod.fst).contains name then .error (.raised s!"Duplicated tensor name '{text}'")
  else
    match byteShape.bind List.getLast? with
    | none => .ok (w ++ [(name, type)])
    | some last =>
      if last % type.traits.typeSize ≠ 0 then
        let size := type.traits.typeSize
        .error (.raised s!"Quantized tensor bytes per row ({last}) is not a multiple of {size}")
      else .ok (w ++ [(name, type)])

/-- `ggml_row_size`. -/
def rowSize (type : GgmlType) (n : Nat) : Nat := type.traits.typeSize * n / type.blckSize

/-- `ggml_quantize_chunk`, which divides the start by the row length. -/
def quantizeChunk (call : ChunkCall) : Except WriteError Nat :=
  if call.nPerRow = 0 then .error (.raised "Floating point exception")
  else .ok (call.nrows * rowSize call.qtype call.nPerRow)

def runCalls : List ChunkCall → Except WriteError Nat
  | [] => .ok 0
  | call :: calls => (quantizeChunk call).bind fun n => (runCalls calls).map (n + ·)

/-- The bytes that `quantize` returns, and the shape they are written in. -/
def writeKQuant (w : GgufWriter) (name : List Char) (shape : List Nat) (qtype : GgmlType)
    (calls : List ChunkCall) : Except WriteError GgufWriter :=
  let nrows := shape.dropLast.prod
  let total := rowSize qtype (shape.getLast?.getD 0) * nrows
  (runCalls calls).bind fun written =>
    if written ≠ total then .error (.sizeMismatch total written)
    else if nrows = 0 then .error (.raised "integer division or modulo by zero")
    else addTensor w name qtype (some [nrows, written / nrows])

/-- `gguf.quants.quantize` for the block types of the package, by the shape of its result. -/
def quantizeBlocks (shape : List Nat) (qtype : GgmlType) : Except WriteError (List Nat) :=
  match shape.getLast? with
  | none => .error (.raised "tuple index out of range")
  | some last =>
    let dims := tupleText shape
    let type := qtypeName qtype
    if last % qtype.blckSize ≠ 0 then
      .error (.raised s!"Can't quantize tensor with shape {dims} to {type}")
    else if last = 0 then
      .error (.raised "cannot reshape array of size 0 into shape (0)")
    else .ok (shape.dropLast ++ [last / qtype.blckSize * qtype.traits.typeSize])

/-- `convert_and_write_tensor`, with the bytes and the writer. -/
def writeTensor (args : ExportArgs) (f32Output : Bool) (w : GgufWriter) (name : List Char)
    (tensor : Ndarray ℚ) : Except WriteError GgufWriter :=
  match convertAndWriteTensor args f32Output name tensor with
  | .error e => .error (.quantize e)
  | .ok (.kQuant qtype calls) => writeKQuant w name tensor.shape qtype calls
  | .ok (.block qtype data) =>
    (quantizeBlocks data.shape qtype).bind fun byteShape =>
      addTensor w name qtype (some byteShape)
  | .ok (.float isF32 _) => addTensor w name (if isF32 then .f32 else .f16) none

end Write

section Runs
variable {args : ExportArgs} {w : GgufWriter} {name : List Char} {tensor : Ndarray ℚ}
  {qtype : GgmlType} {imat : Option (Ndarray ℚ)}

/-- An importance matrix that `convert_and_write_tensor` would use is one of two dimensions, or its
only entry is spread. -/
def Guidable (args : ExportArgs) (name : List Char) (shape : List Nat) : Prop :=
  ∀ R C M, shape = [R, C] → args.visionImatrix name = some M →
    startsWith "v.blk." name = true → endsWith ".weight" name = true →
      M.shape.length = 2 ∨ SpreadsOne R C M.shape

theorem runCalls_replicate (calls : List ChunkCall)
    (hcalls : ∀ c ∈ calls, quantizeChunk c = .ok n) : runCalls calls = .ok (calls.length * n) := by
  induction calls with
  | nil => rw [runCalls, List.length_nil, Nat.zero_mul]
  | cons call calls ih =>
    rw [runCalls, hcalls call (.head _), ih fun c hc => hcalls c (.tail _ hc), List.length_cons,
      Nat.succ_mul, Nat.add_comm]
    rfl

/-- However the rows are handed to the quantizer, all of them are written. -/
theorem runCalls_chunkCalls (data : List ℚ) (nrows : Nat) (hn : n ≠ 0) (imp : Importance) :
    runCalls (chunkCalls qtype data nrows n imp) = .ok (nrows * rowSize qtype n) := by
  cases imp with
  | absent | perColumn =>
    rw [chunkCalls, runCalls, quantizeChunk, if_neg hn]
    rfl
  | perElement M =>
    have hlen : (chunkCalls qtype data nrows n (.perElement M)).length = nrows := by
      rw [chunkCalls, List.length_map, List.length_range]
    have hcalls : ∀ c ∈ chunkCalls qtype data nrows n (.perElement M),
        quantizeChunk c = .ok (rowSize qtype n) := by
      intro c hc
      obtain ⟨r, _, rfl⟩ := List.mem_map.1 hc
      rw [quantizeChunk, if_neg hn, Nat.one_mul]
    rw [runCalls_replicate _ hcalls, hlen]

/-- Rows of no length are the end of the process. -/
theorem runCalls_noColumns (data : List ℚ) (hrows : nrows ≠ 0) (imp : Importance) :
    ∃ e, runCalls (chunkCalls qtype data nrows 0 imp) = .error e := by
  have hcons (call : ChunkCall) (calls : List ChunkCall) (h : call.nPerRow = 0) :
      ∃ e, runCalls (call :: calls) = .error e := by
    rw [runCalls, quantizeChunk, if_pos h]
    exact ⟨_, rfl⟩
  cases imp with
  | absent | perColumn => exact hcons _ _ rfl
  | perElement M =>
    obtain ⟨n, rfl⟩ := Nat.exists_eq_succ_of_ne_zero hrows
    rw [chunkCalls, List.range_succ_eq_map, List.map_cons]
    exact hcons _ _ rfl

theorem rowSize_kquant (hq : qtype ∈ kquantTypes) (hn : 256 ∣ n) :
    rowSize qtype n % qtype.traits.typeSize = 0 := by
  have hblck : qtype.blckSize = 256 := by
    revert qtype
    decide
  obtain ⟨k, rfl⟩ := hn
  rw [rowSize, hblck, Nat.mul_left_comm, Nat.mul_div_cancel_left _ (by decide), Nat.mul_mod_right]

theorem addTensor_fits (hfresh : name ∉ w.map Prod.fst)
    (hlast : byteShape.getLast? = some n) (hfits : n % qtype.traits.typeSize = 0) :
    addTensor w name qtype (some byteShape) = .ok (w ++ [(name, qtype)]) := by
  rw [addTensor, if_neg (fun h => hfresh (List.contains_iff_mem.1 h)), Option.bind_some, hlast]
  exact if_neg (not_not.2 hfits)

theorem writeKQuant_calls (hfresh : name ∉ w.map Prod.fst) (hq : qtype ∈ kquantTypes)
    (hlast : shape.getLast? = some n) (hn : 256 ∣ n) (hne : n ≠ 0)
    (hrows : shape.dropLast.prod ≠ 0) (data : List ℚ) (imp : Importance) :
    writeKQuant w name shape qtype (chunkCalls qtype data shape.dropLast.prod n imp) =
      .ok (w ++ [(name, qtype)]) := by
  simp only [writeKQuant, runCalls_chunkCalls data _ hne imp, Except.bind, hlast,
    Option.getD_some]
  rw [Nat.mul_comm (rowSize qtype n), if_neg (not_not.2 rfl), if_neg hrows,
    Nat.mul_div_cancel_left _ (Nat.pos_of_ne_zero hrows)]
  exact addTensor_fits hfresh rfl (rowSize_kquant hq hn)

theorem writeKQuant_fails (hlast : shape.getLast? = some n)
    (hzero : n = 0 ∨ shape.dropLast.prod = 0) (data : List ℚ) (imp : Importance) :
    ∃ e, writeKQuant w name shape qtype (chunkCalls qtype data shape.dropLast.prod n imp) =
      .error e := by
  cases hrun : runCalls (chunkCalls qtype data shape.dropLast.prod n imp) with
  | error e => exact ⟨e, by rw [writeKQuant, hrun]; rfl⟩
  | ok written =>
    by_cases hrows : shape.dropLast.prod = 0
    · simp only [writeKQuant, hrun, Except.bind, if_pos hrows]
      split
      all_goals exact ⟨_, rfl⟩
    · obtain rfl := hzero.resolve_right hrows
      have hfails : ∃ e, runCalls (chunkCalls qtype data shape.dropLast.prod 0 imp) = .error e :=
        runCalls_noColumns data hrows imp
      obtain ⟨e, he⟩ := hfails
      rw [he] at hrun
      cases hrun

theorem imatrixFor_of_guidable (h : Guidable args name tensor.shape) :
    ∃ imat, imatrixFor args name tensor = .ok imat ∧
      ∀ M, imat = some M → ∃ R C, tensor.shape = [R, C] ∧ M.shape = [R, C] := by
  rw [imatrixFor]
  split
  · rename_i R C M hshape hfound
    by_cases hname : startsWith "v.blk." name = true ∧ endsWith ".weight" name = true
    · rw [if_pos hname]
      obtain ⟨A, hA, hAshape⟩ : ∃ A, oriented R C M = some A ∧ A.shape = [R, C] := by
        rw [oriented]
        split
        case h_1 =>
          split
          · exact ⟨_, rfl, rfl⟩
          · exact ⟨_, rfl, rfl⟩
        case h_2 hno =>
          rcases h R C M hshape hfound hname.1 hname.2 with hdims | hone
          · obtain ⟨rows, cols, hM⟩ := List.length_eq_two.1 hdims
            exact absurd hM (hno rows cols)
          · rw [if_pos hone]
            exact ⟨_, rfl, rfl⟩
      rw [alignImatrix, hA]
      refine ⟨_, rfl, ?_⟩
      intro M' hM'
      cases hM'
      exact ⟨R, C, hshape, hAshape⟩
    · rw [if_neg hname]
      exact ⟨none, rfl, by simp⟩
  · exact ⟨none, rfl, by simp⟩

theorem imatrixFor_fails (h : ¬ Guidable args name tensor.shape) :
    imatrixFor args name tensor = .error .imatrixIndex := by
  simp only [Guidable, not_forall] at h
  obtain ⟨R, C, M, hshape, hfound, hblk, hweight, hdims⟩ := h
  have hnone : oriented R C M = none := by
    rw [not_or] at hdims
    rw [oriented]
    split
    case h_1 hM =>
      rw [hM] at hdims
      exact absurd rfl hdims.1
    case h_2 => exact if_neg hdims.2
  simp only [imatrixFor, hshape, hfound, hblk, hweight, and_self, if_true, alignImatrix, hnone,
    Option.map_none, Option.elim_none]

theorem quantize_aligned (hq : qtype ∈ kquantTypes) (hlast : tensor.shape.getLast? = some n)
    (hn : 256 ∣ n) (himat : ∀ M, imat = some M → ∃ R C, tensor.shape = [R, C] ∧ M.shape = [R, C]) :
    ∃ imp, quantize tensor qtype imat =
      .ok (chunkCalls qtype tensor.data tensor.shape.dropLast.prod n imp) := by
  have hclass : ∃ imp, classify tensor.shape.dropLast.prod n imat = .ok imp := by
    cases imat with
    | none => exact ⟨.absent, rfl⟩
    | some M =>
      obtain ⟨R, C, hshape, hM⟩ := himat M rfl
      have hC : C = n := by
        rw [hshape] at hlast
        exact Option.some.inj hlast
      subst hC
      have hlen : M.data.length = R * C := by
        rw [M.length_data, hM, List.prod_cons, List.prod_cons, List.prod_nil, Nat.mul_one]
      have hR : tensor.shape.dropLast.prod = R := by
        rw [hshape]
        exact Nat.mul_one R
      rw [hR, classify, hM, hlen]
      by_cases hone : R = 1
      · exact ⟨.perColumn M.data, by simp [hone]⟩
      · exact ⟨.perElement M, by simp [hone]⟩
  obtain ⟨imp, himp⟩ := hclass
  refine ⟨imp, ?_⟩
  simp only [quantize, hq, not_true_eq_false, if_false, hlast, Nat.mod_eq_zero_of_dvd hn, ne_eq,
    himp, Except.map]

theorem quantize_ok (h : quantize tensor qtype imat = .ok calls) :
    ∃ n imp, tensor.shape.getLast? = some n ∧ 256 ∣ n ∧
      calls = chunkCalls qtype tensor.data tensor.shape.dropLast.prod n imp := by
  rw [quantize] at h
  split at h
  · cases h
  split at h
  · cases h
  rename_i n hlast
  split at h
  · cases h
  rename_i hmod
  obtain ⟨imp, _, rfl⟩ := map_eq_ok h
  exact ⟨n, imp, hlast, Nat.dvd_of_mod_eq_zero (not_not.1 hmod), rfl⟩

theorem getTensorQuantType_mem (h : getTensorQuantType args name shape = some qtype) :
    qtype = .q8_0 ∨ qtype = .q4_0 ∨ qtype ∈ kquantTypes := by
  have harg (arg : Option QuantArg) (h : arg.map QuantArg.type = some qtype) :
      qtype = .q8_0 ∨ qtype = .q4_0 ∨ qtype ∈ kquantTypes := by
    obtain ⟨a, _, rfl⟩ := Option.map_eq_some_iff.1 h
    cases a <;> decide
  simp only [getTensorQuantType] at h
  repeat' split at h
  all_goals first | cases h | exact harg _ h

/-- A K-quantised tensor is written: its rows are whole super-blocks, there are some, and an
importance matrix that it would be guided by is one. -/
def KWritable (args : ExportArgs) (name : List Char) (shape : List Nat) (last : Nat) : Prop :=
  256 ∣ last ∧ 0 ∉ shape ∧ Guidable args name shape

theorem noEmptyDim_iff {shape : List Nat} (hlast : shape.getLast? = some n) :
    0 ∉ shape ↔ n ≠ 0 ∧ shape.dropLast.prod ≠ 0 := by
  have hshape := List.dropLast_append_getLast? n hlast
  rw [ne_eq, ne_eq, List.prod_eq_zero_iff]
  conv_lhs => rw [← hshape]
  rw [List.mem_append, List.mem_singleton, not_or, and_comm, eq_comm]

theorem writeTensor_kquant (hfresh : name ∉ w.map Prod.fst)
    (htype : getTensorQuantType args name tensor.shape = some qtype) (hq : qtype ∈ kquantTypes)
    (hlast : tensor.shape.getLast? = some n) (h : KWritable args name tensor.shape n)
    (f32Output : Bool) :
    writeTensor args f32Output w name tensor = .ok (w ++ [(name, qtype)]) := by
  obtain ⟨hn, hzero, hguide⟩ := h
  obtain ⟨hne, hrows⟩ := (noEmptyDim_iff hlast).1 hzero
  obtain ⟨imat, himat, hshape⟩ := imatrixFor_of_guidable hguide
  obtain ⟨imp, hcalls⟩ := quantize_aligned hq hlast hn hshape
  simp only [writeTensor, convertAndWriteTensor, htype, hq, if_true, himat, hcalls, bind,
    Except.bind, pure, Except.pure]
  exact writeKQuant_calls hfresh hq hlast hn hne hrows tensor.data imp

theorem writeTensor_kquant_fails
    (htype : getTensorQuantType args name tensor.shape = some qtype) (hq : qtype ∈ kquantTypes)
    (hlast : tensor.shape.getLast? = some n) (h : ¬ KWritable args name tensor.shape n)
    (f32Output : Bool) : ∃ e, writeTensor args f32Output w name tensor = .error e := by
  simp only [writeTensor, convertAndWriteTensor, htype, hq, if_true, bind, pure, Except.pure]
  by_cases hguide : Guidable args name tensor.shape
  swap
  · rw [imatrixFor_fails hguide]
    exact ⟨_, rfl⟩
  obtain ⟨imat, himat, _⟩ := imatrixFor_of_guidable hguide
  rw [himat]
  cases hquant : quantize tensor qtype imat with
  | error e => exact ⟨.quantize e, by simp only [Except.bind, hquant]⟩
  | ok calls =>
    obtain ⟨m, imp, hm, hdvd, rfl⟩ := quantize_ok hquant
    obtain rfl : m = n := Option.some.inj (hm.symm.trans hlast)
    have hzero : m = 0 ∨ tensor.shape.dropLast.prod = 0 := by
      by_contra hno
      rw [not_or] at hno
      exact h ⟨hdvd, (noEmptyDim_iff hlast).2 hno, hguide⟩
    have hfails : ∃ e, writeKQuant w name tensor.shape qtype
        (chunkCalls qtype tensor.data tensor.shape.dropLast.prod m imp) = .error e :=
      writeKQuant_fails hlast hzero tensor.data imp
    obtain ⟨e, he⟩ := hfails
    exact ⟨e, by simp only [Except.bind, hquant, he]⟩

theorem writeTensor_block (hfresh : name ∉ w.map Prod.fst)
    (htype : getTensorQuantType args name tensor.shape = some qtype) (hq : qtype ∉ kquantTypes)
    (hlast : tensor.shape.getLast? = some n) (f32Output : Bool) :
    (32 ∣ n ∧ n ≠ 0 →
      writeTensor args f32Output w name tensor = .ok (w ++ [(name, qtype)])) ∧
    (¬ (32 ∣ n ∧ n ≠ 0) → ∃ e, writeTensor args f32Output w name tensor = .error e) := by
  have hblck : qtype.blckSize = 32 := by
    rcases getTensorQuantType_mem htype with rfl | rfl | hmem
    · rfl
    · rfl
    · exact absurd hmem hq
  simp only [writeTensor, convertAndWriteTensor, htype, hq, if_false, quantizeBlocks, hlast,
    hblck]
  constructor
  · rintro ⟨hdvd, hne⟩
    rw [if_neg (not_not.2 (Nat.mod_eq_zero_of_dvd hdvd)), if_neg hne]
    exact addTensor_fits hfresh List.getLast?_concat (Nat.mul_mod_left _ _)
  · intro hno
    split
    · exact ⟨_, rfl⟩
    rename_i hmod
    rw [if_pos]
    · exact ⟨_, rfl⟩
    · by_contra hne
      exact hno ⟨Nat.dvd_of_mod_eq_zero (not_not.1 hmod), hne⟩

theorem writeTensor_float (hfresh : name ∉ w.map Prod.fst)
    (htype : getTensorQuantType args name tensor.shape = none) (f32Output : Bool) :
    writeTensor args f32Output w name tensor =
      .ok (w ++ [(name, if tensor.shape.length == 1 || f32Output then .f32 else .f16)]) := by
  have hnew : ¬(w.map Prod.fst).contains name = true := fun h =>
    hfresh (List.contains_iff_mem.1 h)
  simp only [writeTensor, convertAndWriteTensor, htype, addTensor, if_neg hnew]
  rfl

end Runs

section Agreement
variable {args : ExportArgs} {f32Output : Bool} {name : List Char} {tensor : Ndarray ℚ}
  {line : PlanLine}

/-- A line of the plan says of a tensor what `convert_and_write_tensor` does with it. -/
def LineAgrees (args : ExportArgs) (f32Output : Bool) (name : List Char) (tensor : Ndarray ℚ)
    (line : PlanLine) : Prop :=
  ∀ w : GgufWriter, name ∉ w.map Prod.fst →
    (line.error.isSome = true ↔ ∃ e, writeTensor args f32Output w name tensor = .error e) ∧
    ∀ w', writeTensor args f32Output w name tensor = .ok w' →
      ∃ type, announcedTypes.lookup line.dtypeStr = some type ∧ w' = w ++ [(name, type)]

/-- The tensors for which the plan is right, by the rule that gives them their type. -/
def PlannedRight (args : ExportArgs) (f32Output : Bool) (name : List Char) (shape : List Nat) :
    Prop :=
  match getTensorQuantType args name shape with
  | none => shape.length = 1 ∨ f32Output = false
  | some qtype => ∃ last, shape.getLast? = some last ∧
    if qtype ∈ kquantTypes then ¬ 32 ∣ last ∨ KWritable args name shape last else last ≠ 0

theorem lookup_qtypeName (h : getTensorQuantType args name shape = some qtype) :
    announcedTypes.lookup (qtypeName qtype) = some qtype := by
  have hall : ∀ t ∈ GgmlType.q8_0 :: .q4_0 :: kquantTypes,
      announcedTypes.lookup (qtypeName t) = some t := by
    decide +kernel
  apply hall
  rw [List.mem_cons, List.mem_cons]
  exact getTensorQuantType_mem h

theorem lineAgrees_of_fails_iff (hlookup : announcedTypes.lookup line.dtypeStr = some u)
    {g : Prop} (hok : ∀ w : GgufWriter, name ∉ w.map Prod.fst → g →
      writeTensor args f32Output w name tensor = .ok (w ++ [(name, u)]))
    (hfails : ∀ w : GgufWriter, name ∉ w.map Prod.fst → ¬ g →
      ∃ e, writeTensor args f32Output w name tensor = .error e) :
    LineAgrees args f32Output name tensor line ↔ (line.error.isSome = true ↔ ¬ g) := by
  have hiff (w : GgufWriter) (hfresh : name ∉ w.map Prod.fst) :
      (∃ e, writeTensor args f32Output w name tensor = .error e) ↔ ¬ g := by
    refine ⟨?_, hfails w hfresh⟩
    rintro ⟨e, he⟩ hgood
    rw [hok w hfresh hgood] at he
    cases he
  constructor
  · intro h
    rw [← hiff [] List.not_mem_nil]
    exact (h [] List.not_mem_nil).1
  · intro h w hfresh
    refine ⟨h.trans (hiff w hfresh).symm, ?_⟩
    intro w' hw'
    by_cases hgood : g
    · rw [hok w hfresh hgood] at hw'
      exact ⟨u, hlookup, (Except.ok.inj hw').symm⟩
    · obtain ⟨e, he⟩ := hfails w hfresh hgood
      rw [he] at hw'
      cases hw'

theorem lineAgrees_iff (hline : planLine args name tensor.shape = .ok line) :
    LineAgrees args f32Output name tensor line ↔
      PlannedRight args f32Output name tensor.shape := by
  cases htype : getTensorQuantType args name tensor.shape with
  | none =>
    simp only [planLine, htype] at hline
    simp only [PlannedRight, htype]
    by_cases hdims : tensor.shape.length = 1
    · rw [if_pos hdims] at hline
      cases hline
      rw [lineAgrees_of_fails_iff (g := True) (u := .f32) rfl]
      · simp [hdims]
      · intro w hfresh _
        rw [writeTensor_float hfresh htype, hdims]
        rfl
      · exact fun _ _ hno => absurd trivial hno
    · rw [if_neg hdims] at hline
      cases hline
      have hwrite (w : GgufWriter) (hfresh : name ∉ w.map Prod.fst) :
          writeTensor args f32Output w name tensor =
            .ok (w ++ [(name, if f32Output then .f32 else .f16)]) := by
        rw [writeTensor_float hfresh htype, beq_false_of_ne hdims, Bool.false_or]
      cases f32Output with
      | false =>
        rw [lineAgrees_of_fails_iff (g := True) (u := .f16) rfl]
        · simp
        · exact fun w hfresh _ => hwrite w hfresh
        · exact fun _ _ hno => absurd trivial hno
      | true =>
        simp only [hdims, Bool.true_eq_false, or_self, iff_false]
        intro h
        obtain ⟨type, hlookup, hw⟩ := (h [] List.not_mem_nil).2 _ (hwrite [] List.not_mem_nil)
        cases hlookup
        cases hw
  | some qtype =>
    simp only [planLine, htype] at hline
    simp only [PlannedRight, htype]
    cases hlast : tensor.shape.getLast? with
    | none =>
      rw [hlast] at hline
      cases hline
    | some last =>
      simp only [hlast] at hline
      cases hline
      have herror : (if last % 32 ≠ 0 then some (errorText name tensor.shape) else none).isSome =
          true ↔ ¬ 32 ∣ last := by
        rw [Nat.dvd_iff_mod_eq_zero]
        split <;> simp_all
      simp only [Option.some.injEq, exists_eq_left']
      by_cases hq : qtype ∈ kquantTypes
      · rw [if_pos hq, lineAgrees_of_fails_iff (lookup_qtypeName htype)
          (fun w hfresh h => writeTensor_kquant hfresh htype hq hlast h f32Output)
          (fun w _ h => writeTensor_kquant_fails htype hq hlast h f32Output), herror]
        have hwhole : KWritable args name tensor.shape last → 32 ∣ last :=
          fun h => Nat.dvd_trans (by decide) h.1
        tauto
      · rw [if_neg hq, lineAgrees_of_fails_iff (lookup_qtypeName htype)
          (fun w hfresh => (writeTensor_block hfresh htype hq hlast f32Output).1)
          (fun w hfresh => (writeTensor_block hfresh htype hq hlast f32Output).2), herror]
        have hzero : last = 0 → 32 ∣ last := by
          rintro rfl
          exact Nat.dvd_zero 32
        tauto

theorem planLine_of_plannedRight {shape : List Nat}
    (h : PlannedRight args f32Output name shape) : ∃ line, planLine args name shape = .ok line := by
  cases htype : getTensorQuantType args name shape with
  | none =>
    simp only [planLine, htype]
    split
    all_goals exact ⟨_, rfl⟩
  | some qtype =>
    simp only [PlannedRight, htype] at h
    obtain ⟨last, hlast, _⟩ := h
    simp only [planLine, htype, hlast]
    exact ⟨_, rfl⟩

theorem planLine_name {shape : List Nat} (h : planLine args name shape = .ok line) :
    line.name = name := by
  rw [planLine] at h
  repeat' split at h
  all_goals
    cases h
    try rfl

/-- The plan and the exporter, run on the same tensors: an error is reported for those that cannot
be written, and the others are written with the type announced for them. -/
def DryRunAgrees (args : ExportArgs) (f32Output : Bool)
    (tensors : List (List Char × Ndarray ℚ)) : Prop :=
  ∃ plan, printQuantPlan args (tensors.map fun t => (t.1, t.2.shape)) = .ok plan ∧
    ∀ t ∈ tensors, ∀ w : GgufWriter, t.1 ∉ w.map Prod.fst →
      (plan.ReportsError t.1 ↔ ∃ e, writeTensor args f32Output w t.1 t.2 = .error e) ∧
      ∀ w', writeTensor args f32Output w t.1 t.2 = .ok w' →
        ∃ type, plan.Announces t.1 type ∧ w' = w ++ [(t.1, type)]

theorem printQuantPlan_lines {tensors : List (List Char × Ndarray ℚ)} {plan : QuantPlan} :
    printQuantPlan args (tensors.map fun t => (t.1, t.2.shape)) = .ok plan →
      tensors.map (fun t => planLine args t.1 t.2.shape) = plan.lines.map .ok := by
  intro h
  obtain ⟨lines, hlines, rfl⟩ := map_eq_ok h
  rw [mapM_eq_ok, List.map_map] at hlines
  exact hlines

/-- With distinct names a tensor has one line of the plan. -/
theorem line_of_tensor {tensors : List (List Char × Ndarray ℚ)} {plan : QuantPlan}
    (hnames : (tensors.map Prod.fst).Nodup)
    (hplan : printQuantPlan args (tensors.map fun t => (t.1, t.2.shape)) = .ok plan)
    (ht : t ∈ tensors) :
    ∃ line, planLine args t.1 t.2.shape = .ok line ∧
      ∀ line', (line' ∈ plan.lines ∧ line'.name = t.1) ↔ line' = line := by
  have hlines := printQuantPlan_lines hplan
  have hof (t : List Char × Ndarray ℚ) (ht : t ∈ tensors) :
      ∃ line ∈ plan.lines, .ok line = planLine args t.1 t.2.shape :=
    List.mem_map.1 (hlines ▸ List.mem_map_of_mem ht)
  obtain ⟨line, hmem, hline⟩ := hof t ht
  refine ⟨line, hline.symm, ?_⟩
  intro line'
  constructor
  · rintro ⟨hmem', hname⟩
    have hfrom : .ok line' ∈ tensors.map fun t => planLine args t.1 t.2.shape :=
      hlines ▸ List.mem_map_of_mem hmem'
    obtain ⟨t', ht', hline'⟩ := List.mem_map.1 hfrom
    have hsame : t' = t :=
      List.inj_on_of_nodup_map hnames ht' ht ((planLine_name hline').symm.trans hname)
    rw [hsame, ← hline] at hline'
    exact (Except.ok.inj hline').symm
  · rintro rfl
    exact ⟨hmem, planLine_name hline.symm⟩

theorem dryRunAgrees_iff {tensors : List (List Char × Ndarray ℚ)}
    (hnames : (tensors.map Prod.fst).Nodup) :
    DryRunAgrees args f32Output tensors ↔
      ∀ t ∈ tensors, PlannedRight args f32Output t.1 t.2.shape := by
  have hagrees (plan : QuantPlan)
      (hplan : printQuantPlan args (tensors.map fun t => (t.1, t.2.shape)) = .ok plan)
      (t : List Char × Ndarray ℚ) (ht : t ∈ tensors) :
      (∀ w : GgufWriter, t.1 ∉ w.map Prod.fst →
        (plan.ReportsError t.1 ↔ ∃ e, writeTensor args f32Output w t.1 t.2 = .error e) ∧
        ∀ w', writeTensor args f32Output w t.1 t.2 = .ok w' →
          ∃ type, plan.Announces t.1 type ∧ w' = w ++ [(t.1, type)]) ↔
        PlannedRight args f32Output t.1 t.2.shape := by
    obtain ⟨line, hline, hunique⟩ := line_of_tensor hnames hplan ht
    rw [← lineAgrees_iff hline]
    simp only [LineAgrees, QuantPlan.ReportsError, QuantPlan.Announces, ← and_assoc, hunique,
      exists_eq_left]
  constructor
  · rintro ⟨plan, hplan, h⟩ t ht
    exact (hagrees plan hplan t ht).1 (h t ht)
  · intro h
    have hall : ∀ t ∈ tensors.map fun t => (t.1, t.2.shape),
        ∃ line, planLine args t.1 t.2 = .ok line := by
      intro t ht
      obtain ⟨t', ht', rfl⟩ := List.mem_map.1 ht
      exact planLine_of_plannedRight (h t' ht')
    obtain ⟨lines, hlines⟩ := exists_mapM_eq_ok hall
    refine ⟨_, by rw [printQuantPlan, hlines]; rfl, ?_⟩
    intro t ht
    exact (hagrees _ (by rw [printQuantPlan, hlines]; rfl) t ht).2 (h t ht)

end Agreement

section Export

/-- `args.quant_vision in KQUANT_STRS`. -/
def useKquantVision (args : ExportArgs) : Bool :=
  args.quantVision.any fun arg => arg.type ∈ kquantTypes

/-- The dry run goes through the exporter's tensors in the shapes they are converted in, and is
right about all of them exactly where each is planned right. -/
theorem dryRun_agrees_with_export_iff (args : ExportArgs) (f32Output : Bool)
    {tensors : List (List Char × Ndarray ℚ)} (hnames : (tensors.map Prod.fst).Nodup) :
    (planCalls (useKquantVision args) =
        (exportCalls (useKquantVision args)).map ExportCall.planned ∧
      ∀ c ∈ exportCalls (useKquantVision args), ∀ shape, c.prep.Fits shape →
        c.prep.apply shape =
          .ok (collectTensorInfo c.planned.padRows c.planned.padCols shape)) ∧
    (DryRunAgrees args f32Output tensors ↔
      ∀ t ∈ tensors, PlannedRight args f32Output t.1 t.2.shape) :=
  ⟨⟨planCalls_eq _, fun c _ _ h => apply_eq_collected c h⟩, dryRunAgrees_iff hnames⟩

/-- Only the language model is quantised, to `Q4_K`. -/
def llmQ4K : ExportArgs := ⟨some .q4k, none, none, none, fun _ => none⟩

def queryName : List Char := "pali.blk.0.attn_q.weight".toList

theorem plannedRight_llmQ4K_iff (hlast : shape.getLast? = some n) (hdims : shape.length ≠ 1) :
    PlannedRight llmQ4K false queryName shape ↔
      ¬ 32 ∣ n ∨ KWritable llmQ4K queryName shape n := by
  have htype : getTensorQuantType llmQ4K queryName shape = some .q4_K := by
    rw [getTensorQuantType, if_neg hdims]
    rfl
  simp only [PlannedRight, htype, hlast, Option.some.injEq, exists_eq_left']
  rw [if_pos (by decide)]

theorem dryRun_agrees_superBlock :
    (planCalls false = (exportCalls false).map ExportCall.planned ∧
      ∀ c ∈ exportCalls false, ∀ shape, c.prep.Fits shape →
        c.prep.apply shape =
          .ok (collectTensorInfo c.planned.padRows c.planned.padCols shape)) ∧
    (DryRunAgrees llmQ4K false [(queryName, blank 1 256)] ↔
      ∀ t ∈ [(queryName, blank 1 256)], PlannedRight llmQ4K false t.1 t.2.shape) :=
  dryRun_agrees_with_export_iff llmQ4K false (List.nodup_singleton _)

/-- A row of 32 passes for `Q4_K` in the plan but stops the exporter, and at full precision a
matrix announced as `FP16` is written as `F32`. -/
theorem dryRun_disagrees :
    ¬ DryRunAgrees llmQ4K false [(queryName, blank 1 32)] ∧
      ¬ DryRunAgrees llmQ4K true [("mm.0.weight".toList, blank 1 32)] := by
  have hright (name : List Char) (f32Output : Bool)
      (h : DryRunAgrees llmQ4K f32Output [(name, blank 1 32)]) :
      PlannedRight llmQ4K f32Output name [1, 32] := by
    have hnames : ([(name, blank 1 32)].map Prod.fst).Nodup := List.nodup_singleton _
    exact (dryRunAgrees_iff hnames).1 h _ (.head _)
  constructor
  · intro h
    rcases (plannedRight_llmQ4K_iff rfl (by decide)).1 (hright _ _ h) with hno | ⟨hdvd, _⟩
    · exact hno (Nat.dvd_refl 32)
    · exact absurd hdvd (by decide)
  · intro h
    rcases hright _ _ h with hdims | hprecision
    · exact absurd hdims (by decide)
    · cases hprecision

end Export
end ActQuant.Pi05
