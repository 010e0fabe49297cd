import Mathlib.Algebra.BigOperators.Group.List.Basic

namespace ActQuant.Pi05

/-- A tuple as Python prints it. -/
def tupleText : List Nat → String
  | [n] => s!"({n},)"
  | ns => "(" ++ ", ".intercalate (ns.map toString) ++ ")"

/-- What `export_unified` does to a tensor before it is converted. -/
inductive Prep where
  | asIs
  | pad (rows cols : Nat)
  | padEach (n : Nat)
  | reshape (shape : List Nat)

/-- `np.pad` with a pair for each axis, `np.pad` with one pair for all, and `reshape`. -/
def Prep.apply : Prep → List Nat → Except String (List Nat)
  | .asIs, shape => .ok shape
  | .pad rows cols, [r, c] => .ok [r + rows, c + cols]
  | .pad _ _, shape =>
    let dims := shape.length
    .error s!"operands could not be broadcast together with remapped shapes: ({dims}, 2)"
  | .padEach n, shape => .ok (shape.map (· + n))
  | .reshape target, shape =>
    if shape.prod = target.prod then .ok target
    else
      let size := shape.prod
      let dims := tupleText target
      .error s!"cannot reshape array of size {size} into shape {dims}"

/-- A call of `convert_and_write_tensor` in `export_unified`. -/
structure ExportCall where
  ggufName : String
  srcKey : String
  prep : Prep

/-- A call of `collect_tensor_info` in the dry run. -/
structure PlanCall where
  ggufName : String
  srcKey : String
  padRows : Nat
  padCols : Nat

/-- The shape that `collect_tensor_info` notes down. -/
def collectTensorInfo (padRows padCols : Nat) : List Nat → List Nat
  | [r, c] => [r + padRows, c + padCols]
  | [n] => if padRows > 0 then [n + padRows] else [n]
  | shape => shape

def visionPrefix : String := "paligemma_with_expert.paligemma.model.vision_tower.vision_model"
def projPrefix : String := "paligemma_with_expert.paligemma.model.multi_modal_projector"
def expertPrefix : String := "paligemma_with_expert.gemma_expert.model"
def paliPrefix : String := "paligemma_with_expert.paligemma.model.language_model"

def keep (ggufName srcKey : String) : ExportCall := ⟨ggufName, srcKey, .asIs⟩

def exportVisionLayer (kquant : Bool) (i : Nat) : List ExportCall :=
  let layer := s!"{visionPrefix}.encoder.layers.{i}"
  let attn : Prep := if kquant then .pad 0 128 else .asIs
  [⟨s!"v.blk.{i}.attn_q.weight", s!"{layer}.self_attn.q_proj.weight", attn⟩,
   keep s!"v.blk.{i}.attn_q.bias" s!"{layer}.self_attn.q_proj.bias",
   ⟨s!"v.blk.{i}.attn_k.weight", s!"{layer}.self_attn.k_proj.weight", attn⟩,
   keep s!"v.blk.{i}.attn_k.bias" s!"{layer}.self_attn.k_proj.bias",
   ⟨s!"v.blk.{i}.attn_v.weight", s!"{layer}.self_attn.v_proj.weight", attn⟩,
   keep s!"v.blk.{i}.attn_v.bias" s!"{layer}.self_attn.v_proj.bias",
   ⟨s!"v.blk.{i}.attn_out.weight", s!"{layer}.self_attn.out_proj.weight", attn⟩,
   keep s!"v.blk.{i}.attn_out.bias" s!"{layer}.self_attn.out_proj.bias",
   keep s!"v.blk.{i}.ln1.weight" s!"{layer}.layer_norm1.weight",
   keep s!"v.blk.{i}.ln1.bias" s!"{layer}.layer_norm1.bias",
   keep s!"v.blk.{i}.ln2.weight" s!"{layer}.layer_norm2.weight",
   keep s!"v.blk.{i}.ln2.bias" s!"{layer}.layer_norm2.bias",
   ⟨s!"v.blk.{i}.ffn_up.weight", s!"{layer}.mlp.fc1.weight",
     if kquant then .pad 48 128 else .pad 48 0⟩,
   ⟨s!"v.blk.{i}.ffn_up.bias", s!"{layer}.mlp.fc1.bias", .padEach 48⟩,
   ⟨s!"v.blk.{i}.ffn_down.weight", s!"{layer}.mlp.fc2.weight", .pad 0 48⟩,
   keep s!"v.blk.{i}.ffn_down.bias" s!"{layer}.mlp.fc2.bias"]

def exportActionLayer (i : Nat) : List ExportCall :=
  let layer := s!"{expertPrefix}.layers.{i}"
  [keep s!"action.blk.{i}.attn_q.weight" s!"{layer}.self_attn.q_proj.weight",
   keep s!"action.blk.{i}.attn_k.weight" s!"{layer}.self_attn.k_proj.weight",
   keep s!"action.blk.{i}.attn_v.weight" s!"{layer}.self_attn.v_proj.weight",
   keep s!"action.blk.{i}.attn_output.weight" s!"{layer}.self_attn.o_proj.weight",
   keep s!"action.blk.{i}.attn_norm.weight" s!"{layer}.input_layernorm.dense.weight",
   keep s!"action.blk.{i}.attn_norm.bias" s!"{layer}.input_layernorm.dense.bias",
   keep s!"action.blk.{i}.ffn_norm.weight" s!"{layer}.post_attention_layernorm.dense.weight",
   keep s!"action.blk.{i}.ffn_norm.bias" s!"{layer}.post_attention_layernorm.dense.bias",
   keep s!"action.blk.{i}.ffn_gate.weight" s!"{layer}.mlp.gate_proj.weight",
   keep s!"action.blk.{i}.ffn_up.weight" s!"{layer}.mlp.up_proj.weight",
   keep s!"action.blk.{i}.ffn_down.weight" s!"{layer}.mlp.down_proj.weight"]

def exportPaliLayer (i : Nat) : List ExportCall :=
  let layer := s!"{paliPrefix}.layers.{i}"
  [keep s!"pali.blk.{i}.attn_norm.weight" s!"{layer}.input_layernorm.weight",
   keep s!"pali.blk.{i}.attn_q.weight" s!"{layer}.self_attn.q_proj.weight",
   keep s!"pali.blk.{i}.attn_k.weight" s!"{layer}.self_attn.k_proj.weight",
   keep s!"pali.blk.{i}.attn_v.weight" s!"{layer}.self_attn.v_proj.weight",
   keep s!"pali.blk.{i}.attn_o.weight" s!"{layer}.self_attn.o_proj.weight",
   keep s!"pali.blk.{i}.ffn_norm.weight" s!"{layer}.post_attention_layernorm.weight",
   keep s!"pali.blk.{i}.ffn_gate.weight" s!"{layer}.mlp.gate_proj.weight",
   keep s!"pali.blk.{i}.ffn_up.weight" s!"{layer}.mlp.up_proj.weight",
   keep s!"pali.blk.{i}.ffn_down.weight" s!"{layer}.mlp.down_proj.weight"]

/-- The calls of `export_unified`, in their order. -/
def exportCalls (kquant : Bool) : List ExportCall :=
  [keep "v.position_embd.weight" s!"{visionPrefix}.embeddings.position_embedding.weight",
   ⟨"v.patch_embd.weight", s!"{visionPrefix}.embeddings.patch_embedding.weight",
     .reshape [1152, 3, 14, 14]⟩,
   keep "v.patch_embd.bias" s!"{visionPrefix}.embeddings.patch_embedding.bias",
   keep "v.post_ln.weight" s!"{visionPrefix}.post_layernorm.weight",
   keep "v.post_ln.bias" s!"{visionPrefix}.post_layernorm.bias"] ++
  (List.range 27).flatMap (exportVisionLayer kquant) ++
  [keep "mm.0.weight" s!"{projPrefix}.linear.weight",
   keep "mm.0.bias" s!"{projPrefix}.linear.bias",
   keep "embed.weight" "paligemma_with_expert.paligemma.lm_head.weight",
   keep "action.action_in.weight" "action_in_proj.weight",
   keep "action.action_in.bias" "action_in_proj.bias",
   keep "action.action_out.weight" "action_out_proj.weight",
   keep "action.action_out.bias" "action_out_proj.bias",
   keep "action.timestep_mlp.in.weight" "time_mlp_in.weight",
   keep "action.timestep_mlp.in.bias" "time_mlp_in.bias",
   keep "action.timestep_mlp.out.weight" "time_mlp_out.weight",
   keep "action.timestep_mlp.out.bias" "time_mlp_out.bias",
   keep "action.output_norm.weight" s!"{expertPrefix}.norm.dense.weight",
   keep "action.output_norm.bias" s!"{expertPrefix}.norm.dense.bias"] ++
  (List.range 18).flatMap exportActionLayer ++ (List.range 18).flatMap exportPaliLayer

def plain (ggufName srcKey : String) : PlanCall := ⟨ggufName, srcKey, 0, 0⟩

def planVisionLayer (useKquantVision : Bool) (i : Nat) : List PlanCall :=
  let layer := s!"{visionPrefix}.encoder.layers.{i}"
  let attnColPad := if useKquantVision then 128 else 0
  let ffnUpColPad := if useKquantVision then 128 else 0
  [⟨s!"v.blk.{i}.attn_q.weight", s!"{layer}.self_attn.q_proj.weight", 0, attnColPad⟩,
   plain s!"v.blk.{i}.attn_q.bias" s!"{layer}.self_attn.q_proj.bias",
   ⟨s!"v.blk.{i}.attn_k.weight", s!"{layer}.self_attn.k_proj.weight", 0, attnColPad⟩,
   plain s!"v.blk.{i}.attn_k.bias" s!"{layer}.self_attn.k_proj.bias",
   ⟨s!"v.blk.{i}.attn_v.weight", s!"{layer}.self_attn.v_proj.weight", 0, attnColPad⟩,
   plain s!"v.blk.{i}.attn_v.bias" s!"{layer}.self_attn.v_proj.bias",
   ⟨s!"v.blk.{i}.attn_out.weight", s!"{layer}.self_attn.out_proj.weight", 0, attnColPad⟩,
   plain s!"v.blk.{i}.attn_out.bias" s!"{layer}.self_attn.out_proj.bias",
   plain s!"v.blk.{i}.ln1.weight" s!"{layer}.layer_norm1.weight",
   plain s!"v.blk.{i}.ln1.bias" s!"{layer}.layer_norm1.bias",
   plain s!"v.blk.{i}.ln2.weight" s!"{layer}.layer_norm2.weight",
   plain s!"v.blk.{i}.ln2.bias" s!"{layer}.layer_norm2.bias",
   ⟨s!"v.blk.{i}.ffn_up.weight", s!"{layer}.mlp.fc1.weight", 48, ffnUpColPad⟩,
   ⟨s!"v.blk.{i}.ffn_up.bias", s!"{layer}.mlp.fc1.bias", 48, 0⟩,
   ⟨s!"v.blk.{i}.ffn_down.weight", s!"{layer}.mlp.fc2.weight", 0, 48⟩,
   plain s!"v.blk.{i}.ffn_down.bias" s!"{layer}.mlp.fc2.bias"]

def planActionLayer (i : Nat) : List PlanCall :=
  let layer := s!"{expertPrefix}.layers.{i}"
  [plain s!"action.blk.{i}.attn_q.weight" s!"{layer}.self_attn.q_proj.weight",
   plain s!"action.blk.{i}.attn_k.weight" s!"{layer}.self_attn.k_proj.weight",
   plain s!"action.blk.{i}.attn_v.weight" s!"{layer}.self_attn.v_proj.weight",
   plain s!"action.blk.{i}.attn_output.weight" s!"{layer}.self_attn.o_proj.weight",
   plain s!"action.blk.{i}.attn_norm.weight" s!"{layer}.input_layernorm.dense.weight",
   plain s!"action.blk.{i}.attn_norm.bias" s!"{layer}.input_layernorm.dense.bias",
   plain s!"action.blk.{i}.ffn_norm.weight" s!"{layer}.post_attention_layernorm.dense.weight",
   plain s!"action.blk.{i}.ffn_norm.bias" s!"{layer}.post_attention_layernorm.dense.bias",
   plain s!"action.blk.{i}.ffn_gate.weight" s!"{layer}.mlp.gate_proj.weight",
   plain s!"action.blk.{i}.ffn_up.weight" s!"{layer}.mlp.up_proj.weight",
   plain s!"action.blk.{i}.ffn_down.weight" s!"{layer}.mlp.down_proj.weight"]

def planPaliLayer (i : Nat) : List PlanCall :=
  let layer := s!"{paliPrefix}.layers.{i}"
  [plain s!"pali.blk.{i}.attn_norm.weight" s!"{layer}.input_layernorm.weight",
   plain s!"pali.blk.{i}.attn_q.weight" s!"{layer}.self_attn.q_proj.weight",
   plain s!"pali.blk.{i}.attn_k.weight" s!"{layer}.self_attn.k_proj.weight",
   plain s!"pali.blk.{i}.attn_v.weight" s!"{layer}.self_attn.v_proj.weight",
   plain s!"pali.blk.{i}.attn_o.weight" s!"{layer}.self_attn.o_proj.weight",
   plain s!"pali.blk.{i}.ffn_norm.weight" s!"{layer}.post_attention_layernorm.weight",
   plain s!"pali.blk.{i}.ffn_gate.weight" s!"{layer}.mlp.gate_proj.weight",
   plain s!"pali.blk.{i}.ffn_up.weight" s!"{layer}.mlp.up_proj.weight",
   plain s!"pali.blk.{i}.ffn_down.weight" s!"{layer}.mlp.down_proj.weight"]

/-- The calls of the dry run, in their order. -/
def planCalls (useKquantVision : Bool) : List PlanCall :=
  [plain "v.position_embd.weight" s!"{visionPrefix}.embeddings.position_embedding.weight",
   plain "v.patch_embd.weight" s!"{visionPrefix}.embeddings.patch_embedding.weight",
   plain "v.patch_embd.bias" s!"{visionPrefix}.embeddings.patch_embedding.bias",
   plain "v.post_ln.weight" s!"{visionPrefix}.post_layernorm.weight",
   plain "v.post_ln.bias" s!"{visionPrefix}.post_layernorm.bias"] ++
  (List.range 27).flatMap (planVisionLayer useKquantVision) ++
  [plain "mm.0.weight" s!"{projPrefix}.linear.weight",
   plain "mm.0.bias" s!"{projPrefix}.linear.bias",
   plain "embed.weight" "paligemma_with_expert.paligemma.lm_head.weight",
   plain "action.action_in.weight" "action_in_proj.weight",
   plain "action.action_in.bias" "action_in_proj.bias",
   plain "action.action_out.weight" "action_out_proj.weight",
   plain "action.action_out.bias" "action_out_proj.bias",
   plain "action.timestep_mlp.in.weight" "time_mlp_in.weight",
   plain "action.timestep_mlp.in.bias" "time_mlp_in.bias",
   plain "action.timestep_mlp.out.weight" "time_mlp_out.weight",
   plain "action.timestep_mlp.out.bias" "time_mlp_out.bias",
   plain "action.output_norm.weight" s!"{expertPrefix}.norm.dense.weight",
   plain "action.output_norm.bias" s!"{expertPrefix}.norm.dense.bias"] ++
  (List.range 18).flatMap planActionLayer ++ (List.range 18).flatMap planPaliLayer

/-- The padding that stands in the plan for what the exporter does. -/
def ExportCall.planned (c : ExportCall) : PlanCall :=
  match c.prep with
  | .asIs | .reshape _ => plain c.ggufName c.srcKey
  | .pad rows cols => ⟨c.ggufName, c.srcKey, rows, cols⟩
  | .padEach n => ⟨c.ggufName, c.srcKey, n, 0⟩

/-- The shapes that the exporter's steps are meant for. -/
def Prep.Fits : Prep → List Nat → Prop
  | .asIs, _ => True
  | .pad _ _, shape => shape.length = 2
  | .padEach n, shape => shape.length = 1 ∧ 0 < n
  | .reshape target, shape => shape = target ∧ 2 < target.length

theorem planCalls_eq (kquant : Bool) :
    planCalls kquant = (exportCalls kquant).map ExportCall.planned := by
  have hvision (i : Nat) :
      planVisionLayer kquant i = (exportVisionLayer kquant i).map ExportCall.planned := by
    cases kquant <;> rfl
  have haction (i : Nat) : planActionLayer i = (exportActionLayer i).map ExportCall.planned := rfl
  have hpali (i : Nat) : planPaliLayer i = (exportPaliLayer i).map ExportCall.planned := rfl
  simp only [planCalls, exportCalls, List.map_append, List.map_flatMap, ← hvision, ← haction,
    ← hpali]
  rfl

theorem collectTensorInfo_zero (shape : List Nat) : collectTensorInfo 0 0 shape = shape := by
  unfold collectTensorInfo
  split <;> rfl

/-- Of a tensor that fits, both sides see the same shape. -/
theorem apply_eq_collected (c : ExportCall) {shape : List Nat} (h : c.prep.Fits shape) :
    c.prep.apply shape =
      .ok (collectTensorInfo c.planned.padRows c.planned.padCols shape) := by
  obtain ⟨name, key, prep⟩ := c
  cases prep with
  | asIs =>
    exact congrArg Except.ok (collectTensorInfo_zero shape).symm
  | pad rows cols =>
    obtain ⟨r, c, rfl⟩ := List.length_eq_two.1 h
    rfl
  | padEach n =>
    obtain ⟨m, rfl⟩ := List.length_eq_one_iff.1 h.1
    have hpad : collectTensorInfo n 0 [m] = [m + n] := if_pos h.2
    exact congrArg Except.ok hpad.symm
  | reshape target =>
    obtain ⟨rfl, hdims⟩ := h
    have happly : Prep.apply (.reshape shape) shape = .ok shape := if_pos rfl
    exact happly.trans (congrArg Except.ok (collectTensorInfo_zero shape).symm)

end ActQuant.Pi05
