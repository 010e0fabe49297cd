import ActQuant.Lib.Outcome
import ActQuant.Quant.TensorType

namespace ActQuant.Quant
open Lib

def striequals : List Char → List Char → Bool
  | a :: as, b :: bs => if a.toLower ≠ b.toLower then false else striequals as bs
  | [], [] => true
  | _, _ => false

/-- `parse_ggml_type`: the first type of that name; `none` is `GGML_TYPE_COUNT`. -/
def parseGgmlType (arg : List Char) : Option GgmlType :=
  GgmlType.all.find? fun t => striequals t.traits.typeName.toList arg

/-- `parse_tensor_type`. -/
def parseTensorType (data : List Char) : Except String TensorQuantization :=
  let whole := String.ofList data
  match data.dropWhile (· ≠ '=') with
  | [] => .error s!"malformed tensor type '{whole}'"
  | _ :: qt =>
    if data.takeWhile (· ≠ '=') = [] then .error "missing tensor name"
    else if qt = [] then .error "missing quantization type"
    else
      let text := String.ofList qt
      match parseGgmlType qt with
      | none => .error s!"invalid quantization type '{text}'"
      | some quant => .ok ⟨(data.takeWhile (· ≠ '=')).map Char.toLower, quant⟩

/-- `QUANT_OPTIONS`. -/
def quantOptions : List (String × LlamaFtype) :=
  [("Q4_0", .q4_0), ("Q4_1", .q4_1), ("MXFP4_MOE", .mxfp4Moe), ("Q5_0", .q5_0), ("Q5_1", .q5_1),
   ("IQ2_XXS", .iq2_xxs), ("IQ2_XS", .iq2_xs), ("IQ2_S", .iq2_s), ("IQ2_M", .iq2_m),
   ("IQ1_S", .iq1_s), ("IQ1_M", .iq1_m), ("TQ1_0", .tq1_0), ("TQ2_0", .tq2_0), ("Q2_K", .q2_K),
   ("Q2_K_S", .q2_K_S), ("IQ3_XXS", .iq3_xxs), ("IQ3_S", .iq3_s), ("IQ3_M", .iq3_m),
   ("Q3_K", .q3_K_M), ("IQ3_XS", .iq3_xs), ("Q3_K_S", .q3_K_S), ("Q3_K_M", .q3_K_M),
   ("Q3_K_L", .q3_K_L), ("IQ4_NL", .iq4_nl), ("IQ4_XS", .iq4_xs), ("Q4_K", .q4_K_M),
   ("Q4_K_S", .q4_K_S), ("Q4_K_M", .q4_K_M), ("Q5_K", .q5_K_M), ("Q5_K_S", .q5_K_S),
   ("Q5_K_M", .q5_K_M), ("Q6_K", .q6_K), ("Q8_0", .q8_0), ("F16", .f16), ("BF16", .bf16),
   ("F32", .allF32), ("COPY", .allF32)]

/-- `try_parse_ftype`: by name, or by the number of the type. -/
def tryParseFtype (ftypeStr : List Char) : Option (String × LlamaFtype) :=
  let upper := ftypeStr.map Char.toUpper
  match quantOptions.find? fun o => striequals o.1.toList upper with
  | some o => some o
  | none => (scanInt upper).bind fun n => quantOptions.find? fun o => (o.2.number : Int) = n


/-- `ggml_n_dims`. -/
def nDims (t : Tensor) : Nat :=
  if t.ne3 > 1 then 4 else if t.ne2 > 1 then 3 else if t.ne1 > 1 then 2 else 1

def excludedParts : List String :=
  ["_norm.weight", "ffn_gate_inp.weight", "altup", "laurel", "per_layer_model_proj",
   "ssm_conv1d.weight", "shortconv.conv.weight", "time_mix_first.weight", "time_mix_w0.weight",
   "time_mix_w1.weight", "time_mix_w2.weight", "time_mix_v0.weight", "time_mix_v1.weight",
   "time_mix_v2.weight", "time_mix_a0.weight", "time_mix_a1.weight", "time_mix_a2.weight",
   "time_mix_g1.weight", "time_mix_g2.weight", "time_mix_decay_w1.weight",
   "time_mix_decay_w2.weight", "time_mix_lerp_fused.weight", "attn_rel_b.weight"]

/-- `name.rfind("weight") == name.size() - 6`; for a name of five characters the difference
wraps around to `npos`, which `rfind` returns. -/
def endsWithWeight (name : List Char) : Bool := endsWith "weight" name || name.length == 5

/-- Whether a tensor is up for quantisation at all. -/
def quantizable (m : Model) (p : Params) (t : Tensor) : Bool :=
  endsWithWeight t.name && nDims t ≥ 2
    && (p.quantizeOutputTensor || t.name != "output.weight".toList) && !p.onlyCopy
    && excludedParts.all (fun part => !contains part t.name)
    && t.name != tn m.hasPosEmbdTn "position_embd" && t.name != tn m.hasTokenTypesTn "token_types"

section Search
variable (search : List Char → List Char → Except String Bool)

/-- The loop over the overrides: the last pattern found in the name wins. -/
def overrideType (name : List Char) : List TensorQuantization → GgmlType →
    Except String GgmlType
  | [], newType => .ok newType
  | o :: os, newType =>
    (search o.name name).bind fun found =>
      overrideType name os (if found ∧ o.quant ≠ newType then o.quant else newType)

variable (m : Model) (p : Params) (defaultTy : GgmlType) (qs : QuantizeState) (tensor : Tensor)

/-- The type before the two re-assignments by name. -/
def heuristicType : Except String (GgmlType × QuantizeState) :=
  if !p.pure ∧ defaultTy.isQuantized then
    (llamaTensorGetType m p qs defaultTy tensor p.ftype).bind fun r =>
      if r.2.nFallback - qs.nFallback = 0 then
        (overrideType search tensor.name p.tensorTypes r.1).map fun t => (t, r.2)
      else .ok r
  else .ok (defaultTy, qs)

def reassigned (newType : GgmlType) : GgmlType :=
  let t := if tensor.name = "token_embd.weight".toList then p.tokenEmbeddingType.getD newType
    else newType
  if tensor.name = "output.weight".toList then p.outputTensorType.getD t else t

structure Decision where
  type : GgmlType
  quantize : Bool

/-- The body of the loop over the tensors, up to the conversion itself. -/
def decideTensor : Except String (Decision × QuantizeState) :=
  if quantizable m p tensor then
    (heuristicType search m p defaultTy qs tensor).map fun r =>
      let t := reassigned p tensor r.1
      (⟨t, tensor.type ≠ t⟩, r.2)
  else .ok (⟨tensor.type, false⟩, qs)

end Search

/-- `std::regex_search`, for patterns whose only special character is the dot. -/
def dotSearch (pattern name : List Char) : Except String Bool := .ok (regexSearch pattern name)

/-- The counts taken before the loop. -/
def initialState (m : Model) (hasImatrix : Bool) (tensors : List Tensor) : QuantizeState where
  nAttentionWv := tensors.countP fun t => contains "attn_v.weight" t.name
    || contains "attn_qkv.weight" t.name || contains "attn_kv_b.weight" t.name
  nFfnDown := m.nLayer
  nFfnGate := m.nLayer
  nFfnUp := m.nLayer
  iAttentionWv := 0
  iFfnDown := 0
  iFfnGate := 0
  iFfnUp := 0
  nKQuantized := 0
  nFallback := 0
  hasImatrix := hasImatrix
  hasOutput := tensors.any fun t => !(contains "attn_v.weight" t.name
    || contains "attn_qkv.weight" t.name || contains "attn_kv_b.weight" t.name)
    && t.name == tn m.hasOutputTn "output"

/-- The loop of `llama_model_quantize_impl` over a model's tensors. Looking up the importance,
converting and writing, which may fail, is the parameter `convert`. -/
def llamaModelQuantize (search : List Char → List Char → Except String Bool)
    (convert : Tensor → Decision → Except String Unit) (m : Model) (p : Params)
    (hasImatrix : Bool) (tensors : List Tensor) :
    List (Visit QuantizeState Tensor Decision) × Except String QuantizeState :=
  match defaultType p.ftype with
  | none =>
    let n := p.ftype.number
    ([], .error s!"invalid output file type {n}\n")
  | some t => traverse (decideTensor search m p t) convert (initialState m hasImatrix tensors)
      tensors

/-- What no step changes: the totals, and what is known of the model as a whole. -/
structure SameTotals (qs qs' : QuantizeState) : Prop where
  nAttentionWv : qs'.nAttentionWv = qs.nAttentionWv
  nFfnDown : qs'.nFfnDown = qs.nFfnDown
  nFfnGate : qs'.nFfnGate = qs.nFfnGate
  nFfnUp : qs'.nFfnUp = qs.nFfnUp
  hasImatrix : qs'.hasImatrix = qs.hasImatrix
  hasOutput : qs'.hasOutput = qs.hasOutput

theorem SameTotals.refl (qs : QuantizeState) : SameTotals qs qs := ⟨rfl, rfl, rfl, rfl, rfl, rfl⟩

theorem SameTotals.trans (h : SameTotals a b) (h' : SameTotals b c) : SameTotals a c where
  nAttentionWv := h'.nAttentionWv.trans h.nAttentionWv
  nFfnDown := h'.nFfnDown.trans h.nFfnDown
  nFfnGate := h'.nFfnGate.trans h.nFfnGate
  nFfnUp := h'.nFfnUp.trans h.nFfnUp
  hasImatrix := h'.hasImatrix.trans h.hasImatrix
  hasOutput := h'.hasOutput.trans h.hasOutput

section Frame
variable {m : Model} {p : Params} {qs qs' : QuantizeState} {tensor : Tensor} {t t' : GgmlType}

/-- A change of the counters alone. -/
def Counted (qs : QuantizeState) (r : GgmlType × QuantizeState) : Prop :=
  SameTotals qs r.2 ∧ r.2.nFallback = qs.nFallback

theorem counted_refl (qs : QuantizeState) (t : GgmlType) : Counted qs (t, qs) := ⟨.refl _, rfl⟩

theorem lowBitType_counted (m : Model) (qs : QuantizeState) (t : GgmlType) (ftype : LlamaFtype)
    (name : List Char) : Counted qs (lowBitType m qs t ftype name) := by
  have hkept : Counted qs (t, if contains "ffn_down" name
      then { (if contains "attn_v.weight" name
        then { qs with iAttentionWv := qs.iAttentionWv + 1 } else qs) with
        iFfnDown := (if contains "attn_v.weight" name
          then { qs with iAttentionWv := qs.iAttentionWv + 1 } else qs).iFfnDown + 1 }
      else if contains "attn_v.weight" name
        then { qs with iAttentionWv := qs.iAttentionWv + 1 } else qs) := by
    cases contains "attn_v.weight" name <;> cases contains "ffn_down" name <;>
      exact ⟨⟨rfl, rfl, rfl, rfl, rfl, rfl⟩, rfl⟩
  rw [lowBitType]
  apply iteInduction
  · exact fun _ => hkept
  intro _
  apply iteInduction
  · exact fun _ => ⟨⟨rfl, rfl, rfl, rfl, rfl, rfl⟩, rfl⟩
  intro _
  apply iteInduction
  · exact fun _ => counted_refl qs _
  intro _
  apply iteInduction
  · exact fun _ => ⟨⟨rfl, rfl, rfl, rfl, rfl, rfl⟩, rfl⟩
  intro _
  apply iteInduction <;> exact fun _ => counted_refl qs _

theorem mixture_counted (m : Model) (p : Params) (qs : QuantizeState) (t : GgmlType)
    (ftype : LlamaFtype) (tensor : Tensor) :
    Returns (Counted qs) (mixture m p qs t ftype tensor) := by
  have hkeep (u : GgmlType) : Returns (Counted qs) (.ok (u, qs) : Except String _) :=
    returns_ok (counted_refl qs u)
  rw [mixture]
  refine .ite (fun _ => hkeep _) fun _ => .ite (fun _ => hkeep _) fun _ =>
    .ite (fun _ => hkeep _) fun _ => .ite (fun _ => returns_ok (lowBitType_counted ..)) fun _ =>
    .ite (fun _ => returns_ok ⟨⟨rfl, rfl, rfl, rfl, rfl, rfl⟩, rfl⟩) fun _ =>
    .ite (fun _ => hkeep _) fun _ => .ite (fun _ => hkeep _) fun _ =>
    .ite (fun _ => ?_) fun _ => .ite (fun _ => hkeep _) fun _ => .ite (fun _ => hkeep _) fun _ =>
    .ite (fun _ => ?_) fun _ => .ite (fun _ => ?_) fun _ => hkeep _
  all_goals exact (returns_true _).map fun _ _ => ⟨⟨rfl, rfl, rfl, rfl, rfl, rfl⟩, rfl⟩

/-- `n_fallback` moves exactly when the mixture's type does not fill the rows. -/
theorem llamaTensorGetType_eq (h : llamaTensorGetType m p qs t tensor ftype = .ok (t', qs')) :
    ∃ r, mixture m p qs t ftype tensor = .ok r ∧ SameTotals qs qs' ∧
      (qs'.nFallback - qs.nFallback = 0 ↔ r.1.blckSize ∣ tensor.ne0) := by
  obtain ⟨r, hmix, hfit⟩ := bind_eq_ok h
  obtain ⟨htotals, hfall⟩ := mixture_counted m p qs t ftype tensor r hmix
  refine ⟨r, hmix, ?_⟩
  rw [fitRows] at hfit
  by_cases hdvd : r.1.blckSize ∣ tensor.ne0
  · rw [if_neg (not_not.2 (Nat.mod_eq_zero_of_dvd hdvd))] at hfit
    cases hfit
    refine ⟨htotals.trans ⟨rfl, rfl, rfl, rfl, rfl, rfl⟩, ?_⟩
    simp only [hfall, Nat.sub_self, hdvd]
  · rw [if_pos fun hmod => hdvd (Nat.dvd_of_mod_eq_zero hmod)] at hfit
    obtain ⟨u, _, hu⟩ := map_eq_ok hfit
    cases hu
    refine ⟨htotals.trans ⟨rfl, rfl, rfl, rfl, rfl, rfl⟩, ?_⟩
    simp only [hfall, hdvd, iff_false]
    omega

variable {search : List Char → List Char → Except String Bool}

theorem decideTensor_sameTotals (h : decideTensor search m p t qs tensor = .ok (d, qs')) :
    SameTotals qs qs' := by
  rw [decideTensor] at h
  split at h
  · obtain ⟨r, hr, hd⟩ := map_eq_ok h
    cases hd
    rw [heuristicType] at hr
    split at hr
    · obtain ⟨r', hget, hr⟩ := bind_eq_ok hr
      obtain ⟨_, _, htotals, _⟩ := llamaTensorGetType_eq hget
      split at hr
      · obtain ⟨_, _, hr⟩ := map_eq_ok hr
        cases hr
        exact htotals
      · cases hr
        exact htotals
    · cases hr
      exact .refl _
  · cases h
    exact .refl _

end Frame
end ActQuant.Quant
