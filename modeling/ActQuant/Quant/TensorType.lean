import ActQuant.Lib.Chars
import ActQuant.Quant.GgmlType

namespace ActQuant.Quant
open Lib

/-- What the choice of types reads of the model: its architecture and its hyperparameters. -/
structure Model where
  falcon : Bool
  hasOutputTn : Bool
  hasTokenEmbdTn : Bool
  hasPosEmbdTn : Bool
  hasTokenTypesTn : Bool
  nExpert : Nat
  nGqa : Nat
  nLayer : Nat
  is70B : Bool

/-- `LLM_TN(arch)(tensor, "weight")`. -/
def tn (present : Bool) (name : String) : List Char :=
  if present then name.toList ++ ".weight".toList else "__missing__".toList

structure Tensor where
  name : List Char
  type : GgmlType
  ne0 : Nat
  ne1 : Nat
  ne2 : Nat
  ne3 : Nat

/-- `tensor_quantization`. -/
structure TensorQuantization where
  name : List Char
  quant : GgmlType
  deriving DecidableEq

/-- `llama_model_quantize_params`; a type left at `GGML_TYPE_COUNT` is absent. -/
structure Params where
  ftype : LlamaFtype
  outputTensorType : Option GgmlType
  tokenEmbeddingType : Option GgmlType
  quantizeOutputTensor : Bool
  onlyCopy : Bool
  pure : Bool
  tensorTypes : List TensorQuantization
  deriving DecidableEq

/-- `quantize_state_impl`. -/
structure QuantizeState where
  nAttentionWv : Nat
  nFfnDown : Nat
  nFfnGate : Nat
  nFfnUp : Nat
  iAttentionWv : Nat
  iFfnDown : Nat
  iFfnGate : Nat
  iFfnUp : Nat
  nKQuantized : Nat
  nFallback : Nat
  hasImatrix : Bool
  hasOutput : Bool

def useMoreBits (iLayer nLayers : Nat) : Bool :=
  iLayer < nLayers / 8 || iLayer ≥ 7 * nLayers / 8 || (iLayer - nLayers / 8) % 3 == 2

def scanDigits (text : List Char) : Option Nat :=
  let digits := text.takeWhile Char.isDigit
  if digits = [] then none else some (Nat.ofDigitChars 10 digits 0)

/-- A decimal number as `sscanf` reads it for a `%d`, and as `std::stoi` does. -/
def scanInt (text : List Char) : Option Int :=
  match text.dropWhile Char.isWhitespace with
  | '-' :: digits => (scanDigits digits).map fun n : Nat => -(n : Int)
  | '+' :: digits => (scanDigits digits).map fun n : Nat => (n : Int)
  | digits => (scanDigits digits).map fun n : Nat => (n : Int)

/-- `sscanf(name, "blk.%d.", &i_layer)`. -/
def scanLayer (name : List Char) : Option Int :=
  if "blk.".toList.isPrefixOf name then scanInt (name.drop "blk.".toList.length) else none

/-- `layer_info`: the counter, or in a model with experts the layer in the tensor's name. -/
def layerInfo (m : Model) (iLayer nLayer : Nat) (name : List Char) : Except String (Nat × Nat) :=
  let text := String.ofList name
  if max 1 m.nExpert > 1 then
    match scanLayer name with
    | none => .error s!"Failed to determine layer for tensor {text}"
    | some i =>
      if i < 0 ∨ i ≥ nLayer then
        .error s!"Bad layer {i} for tensor {text}. Must be in [0, {nLayer})"
      else .ok (i.toNat, nLayer)
  else .ok (iLayer, nLayer)

section Mixture
variable (m : Model) (p : Params) (qs : QuantizeState) (newType : GgmlType) (ftype : LlamaFtype)

def outputType (nx : Nat) : GgmlType :=
  match p.outputTensorType with
  | some t => t
  | none =>
    if ftype = .mxfp4Moe then .q8_0
    else if m.falcon ∨ nx % newType.blckSize ≠ 0 then .q8_0
    else if ftype = .iq2_xs then newType
    else if ftype = .iq2_xxs ∨ ftype = .iq3_xxs ∨ ftype = .iq1_s ∨ ftype = .iq2_s ∨
        ftype = .iq2_m ∨ ftype = .iq1_m then .q5_K
    else if newType ≠ .q8_0 then .q6_K
    else newType

def tokenEmbdType : GgmlType :=
  match p.tokenEmbeddingType with
  | some t => t
  | none =>
    if ftype = .iq2_xs then newType
    else if ftype = .iq2_xxs ∨ ftype = .iq1_s ∨ ftype = .iq1_m then .q2_K
    else if ftype = .iq2_s ∨ ftype = .iq2_m then .iq3_s
    else if ftype = .iq3_xxs then .iq3_s
    else if ftype = .tq1_0 ∨ ftype = .tq2_0 then .q4_K
    else newType

def isLowBit : Bool :=
  ftype = .iq2_xxs ∨ ftype = .iq2_xs ∨ ftype = .iq1_s ∨ ftype = .iq2_s ∨ ftype = .iq2_m ∨
    ftype = .iq1_m

/-- The mixture of the lowest-bit presets; `IQ2_XS` is kept out of it but for the counters. -/
def lowBitType (name : List Char) : GgmlType × QuantizeState :=
  if ftype = .iq2_xs then
    let qs := if contains "attn_v.weight" name
      then { qs with iAttentionWv := qs.iAttentionWv + 1 } else qs
    let qs := if contains "ffn_down" name then { qs with iFfnDown := qs.iFfnDown + 1 } else qs
    (newType, qs)
  else if contains "attn_v.weight" name then
    (if m.nGqa ≥ 4 ∨ m.nExpert ≥ 4 then .q4_K
      else if ftype = .iq2_s ∨ ftype = .iq2_m then .iq3_s else .q2_K,
      { qs with iAttentionWv := qs.iAttentionWv + 1 })
  else if m.nExpert = 8 ∧ contains "attn_k.weight" name then (.q4_K, qs)
  else if contains "ffn_down" name then
    (if qs.iFfnDown < qs.nFfnDown / 8 then
        (if ftype = .iq2_s ∨ ftype = .iq2_m then .iq3_s else .q2_K)
      else newType,
      { qs with iFfnDown := qs.iFfnDown + 1 })
  else if contains "attn_output.weight" name then
    (if m.nExpert = 8 then .q5_K
      else if ftype = .iq1_s ∨ ftype = .iq1_m then .iq2_xxs
      else if ftype = .iq2_s ∨ ftype = .iq2_m then .iq3_s
      else newType, qs)
  else (newType, qs)

def attnVMix : GgmlType :=
  if ftype = .q2_K then (if m.nGqa ≥ 4 then .q4_K else .q3_K)
  else if ftype = .q2_K_S ∧ m.nGqa ≥ 4 then .q4_K
  else if ftype = .iq3_xxs then
    (if m.nGqa ≥ 4 then .q4_K else if !qs.hasImatrix then .iq3_s else .iq3_xxs)
  else if (ftype = .iq3_xs ∨ ftype = .iq3_s) ∧ m.nGqa ≥ 4 then .q4_K
  else if ftype = .iq3_m then .q4_K
  else if ftype = .q3_K_M then (if qs.iAttentionWv < 2 then .q5_K else .q4_K)
  else if ftype = .q3_K_L then .q5_K
  else if (ftype = .iq4_nl ∨ ftype = .iq4_xs) ∧ m.nGqa ≥ 4 then .q5_K
  else if (ftype = .q4_K_M ∨ ftype = .q5_K_M) ∧ useMoreBits qs.iAttentionWv qs.nAttentionWv
    then .q6_K
  else if ftype = .q4_K_S ∧ qs.iAttentionWv < 4 then .q5_K
  else newType

def attnVType : GgmlType :=
  let t := attnVMix m qs newType ftype
  let t := if m.is70B ∧ (t = .q3_K ∨ t = .q4_K) then .q5_K else t
  if m.nExpert = 8 then .q8_0 else t

def attnKType : GgmlType :=
  if m.nExpert = 8 then .q8_0
  else if ftype = .iq3_xs then .iq3_xxs
  else if ftype = .iq3_xxs then .iq2_s
  else newType

def attnQType : GgmlType :=
  if ftype = .iq3_xs then .iq3_xxs
  else if ftype = .iq3_xxs then .iq2_s
  else newType

def ffnDownType (iLayer nLayer : Nat) : GgmlType :=
  if ftype = .q2_K then .q3_K
  else if ftype = .q2_K_S then (if iLayer < nLayer / 8 then .q4_K else newType)
  else if ftype = .iq3_xxs ∧ !qs.hasImatrix then
    (if iLayer < nLayer / 8 then .q4_K else .q3_K)
  else if ftype = .q3_K_M then
    (if iLayer < nLayer / 16 then .q5_K
      else if !m.falcon ∨ useMoreBits iLayer nLayer then .q4_K else .q3_K)
  else if ftype = .iq3_m ∧
      (iLayer < nLayer / 8 ∨ (m.nExpert = 8 ∧ useMoreBits iLayer nLayer)) then .q4_K
  else if ftype = .q3_K_L then (if m.falcon then .q4_K else .q5_K)
  else if ftype = .q4_K_M then
    (if m.falcon then
        (if iLayer < nLayer / 16 then .q6_K
          else if useMoreBits iLayer nLayer then .q5_K else .q4_K)
      else if useMoreBits iLayer nLayer then .q6_K else newType)
  else if iLayer < nLayer / 8 ∧ (ftype = .iq4_nl ∨ ftype = .iq4_xs) ∧ !qs.hasImatrix then .q5_K
  else if ftype = .q5_K_M ∧ useMoreBits iLayer nLayer then .q6_K
  else if ftype = .q4_K_S ∧ !m.falcon ∧ iLayer < nLayer / 8 then .q5_K
  else if (ftype = .q4_0 ∨ ftype = .q5_0) ∧ qs.hasImatrix ∧ iLayer < nLayer / 8 then
    (if ftype = .q4_0 then .q4_1 else .q5_1)
  else newType

def attnOutputType : GgmlType :=
  if !m.falcon then
    if m.nExpert = 8 then
      (if ftype = .q2_K ∨ ftype = .iq3_xs ∨ ftype = .iq3_xxs ∨ ftype = .q3_K_S ∨
          ftype = .q3_K_M ∨ ftype = .iq4_nl ∨ ftype = .q4_K_S ∨ ftype = .q4_K_M ∨
          ftype = .iq3_s ∨ ftype = .iq3_m ∨ ftype = .iq4_xs then .q5_K
        else newType)
    else if ftype = .q2_K then .q3_K
    else if ftype = .iq3_xxs then .iq3_s
    else if ftype = .q3_K_M then .q4_K
    else if ftype = .q3_K_L then .q5_K
    else if ftype = .iq3_m then .q4_K
    else newType
  else if ftype = .q3_K_L then .q4_K
  else newType

def attnQkvType : GgmlType :=
  if ftype = .q3_K_M ∨ ftype = .q3_K_L ∨ ftype = .iq3_m then .q4_K
  else if ftype = .q4_K_M then .q5_K
  else if ftype = .q5_K_M then .q6_K
  else newType

/-- The rule for `ffn_gate`, and the same for `ffn_up`. -/
def ffnGateType (iLayer nLayer : Nat) : GgmlType :=
  if ftype = .iq3_xs ∧ iLayer ≥ nLayer / 8 ∧ iLayer < 7 * nLayer / 8 then .iq3_xxs
  else newType

/-- The type `llama_tensor_get_type` picks before it looks at the row length. -/
def mixture (tensor : Tensor) : Except String (GgmlType × QuantizeState) :=
  let name := tensor.name
  if name = tn m.hasOutputTn "output" ∨
      (!qs.hasOutput ∧ name = tn m.hasTokenEmbdTn "token_embd") then
    .ok (outputType m p newType ftype tensor.ne0, qs)
  else if ftype = .mxfp4Moe then
    .ok (if tensor.ne2 > 1 then .mxfp4 else .q8_0, qs)
  else if name = "token_embd.weight".toList ∨ name = "per_layer_token_embd.weight".toList then
    .ok (tokenEmbdType p newType ftype, qs)
  else if isLowBit ftype then .ok (lowBitType m qs newType ftype name)
  else if contains "attn_v.weight" name then
    .ok (attnVType m qs newType ftype, { qs with iAttentionWv := qs.iAttentionWv + 1 })
  else if contains "attn_k.weight" name then .ok (attnKType m newType ftype, qs)
  else if contains "attn_q.weight" name then .ok (attnQType newType ftype, qs)
  else if contains "ffn_down" name then
    (layerInfo m qs.iFfnDown qs.nFfnDown name).map fun info =>
      (ffnDownType m qs newType ftype info.1 info.2, { qs with iFfnDown := qs.iFfnDown + 1 })
  else if contains "attn_output.weight" name then .ok (attnOutputType m newType ftype, qs)
  else if contains "attn_qkv.weight" name then .ok (attnQkvType newType ftype, qs)
  else if contains "ffn_gate" name then
    (layerInfo m qs.iFfnGate qs.nFfnGate name).map fun info =>
      (ffnGateType newType ftype info.1 info.2, { qs with iFfnGate := qs.iFfnGate + 1 })
  else if contains "ffn_up" name then
    (layerInfo m qs.iFfnUp qs.nFfnUp name).map fun info =>
      (ffnGateType newType ftype info.1 info.2, { qs with iFfnUp := qs.iFfnUp + 1 })
  else .ok (newType, qs)

end Mixture

/-- The type used instead where the row length does not fill a type's blocks. -/
def fallbackType : GgmlType → Except String GgmlType
  | .tq1_0 | .tq2_0 => .ok .q4_0
  | .iq2_xxs | .iq2_xs | .iq2_s | .iq3_xxs | .iq3_s | .iq1_s | .iq1_m | .q2_K | .q3_K
  | .iq4_xs => .ok .iq4_nl
  | .q4_K => .ok .q5_0
  | .q5_K => .ok .q5_1
  | .q6_K => .ok .q8_0
  | _ => .error "\nUnsupported tensor size encountered\n"

/-- The end of `llama_tensor_get_type`: the type itself, or one that its rows do fill. -/
def fitRows (qs : QuantizeState) (newType : GgmlType) (nx : Nat) :
    Except String (GgmlType × QuantizeState) :=
  if nx % newType.blckSize ≠ 0 then
    (fallbackType newType).map fun t =>
      (if nx % t.blckSize ≠ 0 then .f16 else t, { qs with nFallback := qs.nFallback + 1 })
  else .ok (newType, { qs with nKQuantized := qs.nKQuantized + 1 })

/-- `llama_tensor_get_type`. -/
def llamaTensorGetType (m : Model) (p : Params) (qs : QuantizeState) (newType : GgmlType)
    (tensor : Tensor) (ftype : LlamaFtype) : Except String (GgmlType × QuantizeState) :=
  (mixture m p qs newType ftype tensor).bind fun r => fitRows r.2 r.1 tensor.ne0

section Fit
variable {m : Model} {p : Params} {qs qs' : QuantizeState} {tensor : Tensor} {t t' : GgmlType}

theorem fitRows_fits (h : fitRows qs t nx = .ok (t', qs')) : t'.blckSize ∣ nx := by
  rw [fitRows] at h
  split at h
  · cases hf : fallbackType t with
    | error e =>
      rw [hf] at h
      cases h
    | ok u =>
      rw [hf] at h
      cases h
      split
      · exact Nat.one_dvd nx
      · rename_i hu
        exact Nat.dvd_of_mod_eq_zero (not_not.1 hu)
  · rename_i ht
    cases h
    exact Nat.dvd_of_mod_eq_zero (not_not.1 ht)

theorem llamaTensorGetType_fits
    (h : llamaTensorGetType m p qs t tensor ftype = .ok (t', qs')) :
    t'.blckSize ∣ tensor.ne0 := by
  rw [llamaTensorGetType] at h
  cases hmix : mixture m p qs t ftype tensor with
  | error e =>
    rw [hmix] at h
    cases h
  | ok r =>
    rw [hmix] at h
    exact fitRows_fits h

theorem fitRows_of_dvd (qs : QuantizeState) (h : t.blckSize ∣ nx) :
    fitRows qs t nx = .ok (t, { qs with nKQuantized := qs.nKQuantized + 1 }) := by
  rw [fitRows, if_neg (not_not.2 (Nat.mod_eq_zero_of_dvd h))]

end Fit
end ActQuant.Quant
