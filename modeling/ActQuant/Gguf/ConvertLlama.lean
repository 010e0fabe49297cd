import ActQuant.Gguf.BlockTensor
import ActQuant.Lib.Lists
import ActQuant.Lib.Ndarray
import Mathlib.Data.List.ProdSigma

namespace ActQuant.Gguf
open Lib

structure LlamaDims where
  nBlocks : Nat
  nHead : Nat
  nKvHead : Nat
  headDim : Nat
  hidden : Nat
  ffn : Nat
  nHead_pos : 0 < nHead
  nKvHead_pos : 0 < nKvHead
  headDim_pos : 0 < headDim
  headDim_even : 2 ∣ headDim
  hidden_pos : 0 < hidden

def LlamaDims.rows (d : LlamaDims) : Kind → Nat
  | .attnQ => d.nHead * d.headDim
  | .attnK | .attnV => d.nKvHead * d.headDim
  | .attnOutput | .ffnDown => d.hidden
  | .ffnGate | .ffnUp => d.ffn

def LlamaDims.cols (d : LlamaDims) : Kind → Nat
  | .attnOutput => d.nHead * d.headDim
  | .ffnDown => d.ffn
  | .attnQ | .attnK | .attnV | .ffnGate | .ffnUp => d.hidden

def Kind.all : List Kind :=
  [.attnQ, .attnK, .attnV, .attnOutput, .ffnGate, .ffnUp, .ffnDown]

def blockTensors (nBlocks : Nat) : List (Nat × Kind) := List.range nBlocks ×ˢ Kind.all

theorem mem_blockTensors (h : l < n) (k : Kind) : (l, k) ∈ blockTensors n := by
  apply List.pair_mem_product.2
  exact ⟨List.mem_range.2 h, by cases k <;> decide⟩

def Kind.hfModule : Kind → String
  | .attnQ => "self_attn.q_proj"
  | .attnK => "self_attn.k_proj"
  | .attnV => "self_attn.v_proj"
  | .attnOutput => "self_attn.o_proj"
  | .ffnGate => "mlp.gate_proj"
  | .ffnUp => "mlp.up_proj"
  | .ffnDown => "mlp.down_proj"

def hfModuleName (l : Nat) (k : Kind) : List Char := numbered "model.layers." l k.hfModule.toList

def hfName (l : Nat) (k : Kind) : List Char :=
  numbered "model.layers." l (k.hfModule.toList ++ ".weight".toList)

/-- `TensorNameMap`, for the matrices of the blocks. -/
def tensorMap (nBlocks : Nat) : List (List Char × List Char) :=
  (blockTensors nBlocks).map fun t =>
    (hfModuleName t.1 t.2, numbered "blk." t.1 t.2.name.toList)

/-- `TensorNameMap.get_name`: a key as it is, or else without one of the suffixes. -/
def getName (mapping : List (List Char × List Char)) (trySuffixes : List String)
    (key : List Char) : Option (List Char) :=
  mapping.lookup key <|> trySuffixes.findSome? fun suffix =>
    (stripSuffix suffix key).bind fun stem =>
      (mapping.lookup stem).map (· ++ suffix.toList)

/-- `map_tensor_name`; an unknown name raises an error. -/
def mapTensorName (d : LlamaDims) (name : List Char) : Option (List Char) :=
  getName (tensorMap d.nBlocks) [".weight", ".bias"] name

/-- The number of heads whose rows are re-ordered: the key/value heads where given. -/
def permuteHeads (nHead : Nat) : Option Nat → Nat
  | some kv => if nHead ≠ kv then kv else nHead
  | none => nHead

theorem permuteHeads_some (nHead kv : Nat) : permuteHeads nHead (some kv) = kv := by
  by_cases h : nHead = kv
  · rw [permuteHeads, if_neg (not_not_intro h), h]
  · rw [permuteHeads, if_pos h]

/-- `LlamaModel.permute`; torch raises an error where a shape does not fit. -/
def permute (weights : Ndarray α) (nHead : Nat) (nHeadKv : Option Nat) : Option (Ndarray α) :=
  let n := permuteHeads nHead nHeadKv
  match weights.shape with
  | [] => none
  | rows :: rest =>
    (weights.reshape (n :: 2 :: rows / n / 2 :: rest)).bind fun split =>
      split.swapaxes12.reshape weights.shape

def visionPrefixes : List String :=
  ["vision_encoder.", "vision_language_adapter.", "patch_merger.", "pre_mm_projector_norm"]

def isMultimodalTensor (name : List Char) : Bool :=
  contains "vision_tower" name || contains "vision_model" name || contains "audio_tower" name
    || contains "model.connector" name || contains "multi_modal_projector" name
    || visionPrefixes.any fun p => p.toList.isPrefixOf name

/-- The prefixes that wrapped checkpoints put before the text model's names. -/
def textName (name : List Char) : List Char :=
  if "model.text_model".toList.isPrefixOf name then replace "text_model." "" name
  else if "language_model.".toList.isPrefixOf name then replace "language_model." "" name
  else name

/-- `LlamaModel.modify_tensors`, for the tensors of a model without experts. -/
def modifyTensors (d : LlamaDims) (data : Ndarray α) (name : List Char) :
    Option (List (List Char × Ndarray α)) :=
  if isMultimodalTensor name then some []
  else
    let name := textName name
    let onQ := if endsWith "q_proj.weight" name || endsWith "q_proj.bias" name
      then permute data d.nHead (some d.nHead) else some data
    onQ.bind fun data =>
      let onK := if endsWith "k_proj.weight" name || endsWith "k_proj.bias" name
        then permute data d.nHead (some d.nKvHead) else some data
      onK.bind fun data => (mapTensorName d name).map fun newName => [(newName, data)]

section Names
variable {l l' : Nat} {k k' : Kind}

theorem hfModuleName_injective (h : hfModuleName l k = hfModuleName l' k') : l = l' ∧ k = k' := by
  obtain ⟨hl, hm⟩ := numbered_inj h
  refine ⟨hl, ?_⟩
  revert hm
  cases k <;> cases k' <;> decide

theorem hfModuleName_ne_hfName : hfModuleName l' k' ≠ hfName l k := by
  intro h
  obtain ⟨_, hm⟩ := numbered_inj h
  revert hm
  cases k <;> cases k' <;> decide

theorem isPrefixOf_hfName {p : String}
    (h : clash (· == ·) p.toList "model.layers.".toList = true) (l : Nat) (k : Kind) :
    p.toList.isPrefixOf (hfName l k) = false := by
  rw [isPrefixOf_eq_matchPrefix]
  exact matchPrefix_of_clash h _

theorem isMultimodalTensor_hfName (l : Nat) (k : Kind) :
    isMultimodalTensor (hfName l k) = false := by
  have hskip {needle : String} (h : skips needle "model.layers." = true) :
      contains needle (hfName l k) = contains needle (k.hfModule.toList ++ ".weight".toList) :=
    contains_numbered h l _
  have hprefixes : (visionPrefixes.any fun p => p.toList.isPrefixOf (hfName l k)) = false := by
    apply List.any_eq_false.2
    intro p hp
    have hclash : ∀ p ∈ visionPrefixes, clash (· == ·) p.toList "model.layers.".toList = true := by
      decide
    rw [isPrefixOf_hfName (hclash p hp)]
    decide
  rw [isMultimodalTensor, hprefixes, hskip (by decide), hskip (by decide),
    hskip (by decide), hskip (by decide), hskip (by decide)]
  cases k <;> decide

theorem textName_hfName (l : Nat) (k : Kind) : textName (hfName l k) = hfName l k := by
  rw [textName, isPrefixOf_hfName (by decide), isPrefixOf_hfName (by decide)]
  rfl

theorem mapTensorName_hfName (d : LlamaDims) (hl : l < d.nBlocks) (k : Kind) :
    mapTensorName d (hfName l k) = some (blockName l k) := by
  have hwhole : (tensorMap d.nBlocks).lookup (hfName l k) = none :=
    lookup_map_eq_none fun _ _ => hfModuleName_ne_hfName
  have hstem : (tensorMap d.nBlocks).lookup (hfModuleName l k) =
      some (numbered "blk." l k.name.toList) := by
    have hinj (x y : Nat × Kind) (h : hfModuleName x.1 x.2 = hfModuleName y.1 y.2) : x = y :=
      Prod.ext_iff.2 (hfModuleName_injective h)
    exact lookup_map_of_injective (x := (l, k)) hinj (mem_blockTensors hl k)
  have hsplit : hfName l k = hfModuleName l k ++ ".weight".toList := (numbered_append _ _ _ _).symm
  rw [mapTensorName, getName, hwhole, List.findSome?_cons, hsplit, stripSuffix_append,
    Option.bind_some, hstem, Option.map_some, numbered_append]
  rfl

theorem endsWith_hfName {suffix : String}
    (h : suffix.toList.length ≤ (k.hfModule.toList ++ ".weight".toList).length) (l : Nat) :
    endsWith suffix (hfName l k) = endsWith suffix (k.hfModule.toList ++ ".weight".toList) := by
  have hsplit : hfName l k = numbered "model.layers." l [] ++
      (k.hfModule.toList ++ ".weight".toList) := by
    rw [numbered_append, List.nil_append, hfName]
  rw [hsplit, endsWith_append h]

end Names

section Rows

/-- The checkpoint row that ends up in a row of a re-ordered matrix. -/
def permuteRow (half r : Nat) : Nat := (r / 2 / half * 2 + r % 2) * half + r / 2 % half

variable {n half cols : Nat}

theorem permuteRow_lt (hr : r < n * (2 * half)) : permuteRow half r < n * (2 * half) := by
  have hhalf : 0 < half := by
    rcases Nat.eq_zero_or_pos half with h₀ | h₀
    · simp only [h₀, Nat.mul_zero, Nat.not_lt_zero] at hr
    · exact h₀
  have hhead : r / 2 / half < n := by
    rw [Nat.div_div_eq_div_mul]
    exact Nat.div_lt_of_lt_mul (Nat.mul_comm n _ ▸ hr)
  have hpair : r / 2 % half < half := Nat.mod_lt _ hhalf
  have hle : (r / 2 / half * 2 + r % 2) + 1 ≤ n * 2 := by omega
  have hmul := Nat.mul_le_mul_right half hle
  rw [Nat.succ_mul] at hmul
  rw [permuteRow, ← Nat.mul_assoc]
  omega

/-- The rows of each head are interleaved: its first half with its second. -/
theorem permute_rows (half cols : Nat) (f : Nat → Nat → α) (hn : 0 < n)
    (hkv : permuteHeads nHead kv = n) :
    ∃ stored, permute (Ndarray.ofFn (n * (2 * half)) cols f) nHead kv = some stored ∧
      stored.shape = [n * (2 * half), cols] ∧
      ∀ r c, r < n * (2 * half) → c < cols →
        stored.at? [r, c] = some (f (permuteRow half r) c) := by
  have hrows : n * (2 * half) / n / 2 = half := by
    rw [Nat.mul_div_cancel_left _ hn, Nat.mul_div_cancel_left _ (by decide)]
  have hsize : [n, 2, half, cols].prod = [n * (2 * half), cols].prod := by
    simp only [List.prod_cons, List.prod_nil]
    ring
  let whole : Ndarray α := Ndarray.ofFn (n * (2 * half)) cols f
  let split : Ndarray α := ⟨[n, 2, half, cols], whole.data, whole.length_data.trans hsize.symm⟩
  have hback : [n * (2 * half), cols].prod = split.swapaxes12.shape.prod :=
    hsize.symm.trans (prod_swap12 _).symm
  refine ⟨⟨[n * (2 * half), cols], split.swapaxes12.data, split.swapaxes12.length_data.trans
    hback.symm⟩, ?_, rfl, ?_⟩
  · change (whole.reshape (permuteHeads nHead kv :: 2 ::
      n * (2 * half) / permuteHeads nHead kv / 2 :: [cols])).bind _ = _
    rw [hkv, hrows, Ndarray.reshape_eq_some hsize, Option.bind_some]
    exact Ndarray.reshape_eq_some hback
  · intro r c hr hc
    have hsrc : permuteRow half r < n * (2 * half) := permuteRow_lt hr
    have hhead : r / 2 / half < n := by
      rw [Nat.div_div_eq_div_mul]
      exact Nat.div_lt_of_lt_mul (Nat.mul_comm n _ ▸ hr)
    have hpair : r / 2 % half < half := by
      rcases Nat.eq_zero_or_pos half with h₀ | h₀
      · simp only [h₀, Nat.mul_zero, Nat.not_lt_zero] at hr
      · exact Nat.mod_lt _ h₀
    have hrow : (r / 2 / half * half + r / 2 % half) * 2 + r % 2 = r := by
      rw [Nat.mul_comm (r / 2 / half), Nat.div_add_mod, Nat.mul_comm, Nat.div_add_mod]
    have hin : InShape [r / 2 / half, r % 2, r / 2 % half, c] split.shape :=
      .cons hhead (.cons (Nat.mod_lt _ (by decide)) (.cons hpair (.cons hc .nil)))
    have hswap := Ndarray.at?_swapaxes12 hin
    rw [Ndarray.at?_of_inShape hin, Ndarray.at?_of_inShape (InShape.swap12 hin)] at hswap
    have hnew : ravel [n * (2 * half), cols] [r, c] =
        ravel [n, half, 2, cols] [r / 2 / half, r / 2 % half, r % 2, c] := by
      simp only [ravel, List.prod_cons, List.prod_nil, Nat.mul_one, Nat.add_zero]
      conv_lhs => rw [← hrow]
      ring
    have hold : ravel [n, 2, half, cols] [r / 2 / half, r % 2, r / 2 % half, c] =
        ravel [n * (2 * half), cols] [permuteRow half r, c] := by
      simp only [ravel, permuteRow, List.prod_cons, List.prod_nil, Nat.mul_one, Nat.add_zero]
      ring
    have hval := Ndarray.at?_ofFn f hsrc hc
    rw [Ndarray.at?_of_inShape (.cons hsrc (.cons hc .nil))] at hval
    rw [Ndarray.at?_of_inShape (.cons hr (.cons hc .nil)), hnew]
    exact hswap.trans ((congrArg (whole.data[·]?) hold).trans hval)

/-- The checkpoint row that ends up in a row of a stored matrix. -/
def LlamaDims.sourceRow (d : LlamaDims) : Kind → Nat → Nat
  | .attnQ, r | .attnK, r => permuteRow (d.headDim / 2) r
  | _, r => r

/-- A matrix is stored under its block name, its rows re-ordered for the query and the key. -/
theorem modifyTensors_hfName (d : LlamaDims) (hl : l < d.nBlocks) (k : Kind)
    (f : Nat → Nat → α) :
    ∃ stored, modifyTensors d (Ndarray.ofFn (d.rows k) (d.cols k) f) (hfName l k) =
        some [(blockName l k, stored)] ∧ stored.shape = [d.rows k, d.cols k] ∧
      ∀ r c, r < d.rows k → c < d.cols k →
        stored.at? [r, c] = some (f (d.sourceRow k r) c) := by
  have hq : (endsWith "q_proj.weight" (hfName l k) || endsWith "q_proj.bias" (hfName l k)) =
      decide (k = .attnQ) := by
    rw [endsWith_hfName (by cases k <;> decide),
      endsWith_hfName (by cases k <;> decide)]
    cases k <;> decide
  have hk : (endsWith "k_proj.weight" (hfName l k) || endsWith "k_proj.bias" (hfName l k)) =
      decide (k = .attnK) := by
    rw [endsWith_hfName (by cases k <;> decide),
      endsWith_hfName (by cases k <;> decide)]
    cases k <;> decide
  have hdim : 2 * (d.headDim / 2) = d.headDim := Nat.mul_div_cancel' d.headDim_even
  simp only [modifyTensors, isMultimodalTensor_hfName, Bool.false_eq_true, if_false,
    textName_hfName, hq, hk, mapTensorName_hfName d hl]
  cases k
  case attnQ =>
    have hperm := permute_rows (d.headDim / 2) d.hidden f
      d.nHead_pos (permuteHeads_some d.nHead d.nHead)
    rw [hdim] at hperm
    obtain ⟨stored, hstored, hshape, hvals⟩ := hperm
    refine ⟨stored, ?_, hshape, hvals⟩
    simp only [LlamaDims.rows, LlamaDims.cols, decide_true, if_true, hstored, Option.bind_some,
      reduceCtorEq, decide_false, Bool.false_eq_true, if_false, Option.map_some]
  case attnK =>
    have hperm := permute_rows (d.headDim / 2) d.hidden f
      d.nKvHead_pos (permuteHeads_some d.nHead d.nKvHead)
    rw [hdim] at hperm
    obtain ⟨stored, hstored, hshape, hvals⟩ := hperm
    refine ⟨stored, ?_, hshape, hvals⟩
    simp only [LlamaDims.rows, LlamaDims.cols, decide_true, if_true, hstored, Option.bind_some,
      reduceCtorEq, decide_false, Bool.false_eq_true, if_false, Option.map_some]
  all_goals
    refine ⟨Ndarray.ofFn _ _ f, ?_, rfl, fun r c hr hc => Ndarray.at?_ofFn f hr hc⟩
    simp only [reduceCtorEq, decide_false, Bool.false_eq_true, if_false, Option.bind_some,
      Option.map_some]

end Rows
end ActQuant.Gguf
