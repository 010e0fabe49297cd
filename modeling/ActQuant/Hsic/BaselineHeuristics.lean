import ActQuant.Lib.Dict
import ActQuant.Quant.PresetKeeps

namespace ActQuant.Hsic
open Lib Gguf Quant

/-- The keys of `TENSOR_PARAMS`, in their order. -/
def tensorParams : List Kind :=
  [.attnQ, .attnK, .attnV, .attnOutput, .ffnGate, .ffnUp, .ffnDown]

/-- The loops that the two heuristics share, over the layers and the kinds of tensors. -/
def hardcoded (pick : Nat → Kind → String) (nLayers : Nat) : Dict (List Char) String :=
  (List.range nLayers).foldl (fun a l =>
    tensorParams.foldl (fun a k => Dict.set (blockName l k) (pick l k) a) a) []

def iq2sHeuristic (nLayers : Nat) : Dict (List Char) String :=
  hardcoded (fun l ttype =>
    if ttype = .attnV ∨ ttype = .attnOutput then "IQ3_S"
    else if ttype = .ffnDown ∧ l < nLayers / 8 then "IQ3_S"
    else "IQ2_XS") nLayers

def iq2xsHeuristic (nLayers : Nat) : Dict (List Char) String :=
  hardcoded (fun l ttype =>
    if ttype = .attnV then "Q2_K"
    else if ttype = .ffnDown ∧ l < nLayers / 8 then "Q2_K"
    else "IQ2_XS") nLayers

/-- The two presets that the allocator compares itself with. -/
inductive Baseline where
  | iq2_xs | iq2_s

def Baseline.ftype : Baseline → LlamaFtype
  | .iq2_xs => .iq2_xs
  | .iq2_s => .iq2_s

def Baseline.heuristic : Baseline → Nat → Dict (List Char) String
  | .iq2_xs => iq2xsHeuristic
  | .iq2_s => iq2sHeuristic

/-- The type of the quantiser that a dictionary of type names gives a tensor. -/
def assignedType (d : Dict (List Char) String) (name : List Char) : Option GgmlType :=
  (d.lookup name).bind fun type => parseGgmlType type.toList

/-- The weights for which a heuristic still says what its preset does. -/
def Baseline.Copied (n l : Nat) : Baseline → Kind → Prop
  | .iq2_s, _ => True
  | .iq2_xs, k => k ≠ .attnV ∧ ¬ (k = .ffnDown ∧ l < n / 8)

section Heuristic
variable {pick : Nat → Kind → String}

theorem mem_tensorParams (k : Kind) : k ∈ tensorParams := by
  cases k <;> decide

theorem lookup_hardcoded (hl : l < n) (k : Kind) :
    (hardcoded pick n).lookup (blockName l k) = some (pick l k) := by
  have hflat : hardcoded pick n =
      ((List.range n).flatMap fun l => tensorParams.map fun k => (l, k)).foldl
        (fun a e => Dict.set (blockName e.1 e.2) (pick e.1 e.2) a) [] := by
    rw [List.foldl_flatMap]
    simp only [List.foldl_map]
    rfl
  have hmem : (l, k) ∈ (List.range n).flatMap fun l => tensorParams.map fun k => (l, k) :=
    List.mem_flatMap.2 ⟨l, List.mem_range.2 hl, List.mem_map_of_mem (mem_tensorParams k)⟩
  rw [hflat]
  have hsame : ∀ e ∈ (List.range n).flatMap fun l => tensorParams.map fun k => (l, k),
      blockName e.1 e.2 = blockName l k → pick e.1 e.2 = pick l k := by
    intro e _ hkey
    obtain ⟨hl, hk⟩ := blockName_injective hkey
    rw [hl, hk]
  exact Dict.lookup_foldl_set_of_mem (v := fun e : Nat × Kind => pick e.1 e.2) hmem hsame

theorem assignedType_hardcoded (hl : l < n) (k : Kind) :
    assignedType (hardcoded pick n) (blockName l k) = parseGgmlType (pick l k).toList := by
  rw [assignedType, lookup_hardcoded hl, Option.bind_some]

theorem parse_baseline_names :
    parseGgmlType "IQ3_S".toList = some .iq3_s ∧ parseGgmlType "Q2_K".toList = some .q2_K ∧
      parseGgmlType "IQ2_XS".toList = some .iq2_xs := by
  decide +kernel

/-- What a heuristic assigns, as a type of the quantiser. -/
def heuristicRule (n l : Nat) : Baseline → Kind → GgmlType
  | .iq2_s, k =>
    if (k = .attnV ∨ k = .attnOutput) ∨ k = .ffnDown ∧ l < n / 8 then .iq3_s else .iq2_xs
  | .iq2_xs, k => if k = .attnV ∨ k = .ffnDown ∧ l < n / 8 then .q2_K else .iq2_xs

theorem assignedType_heuristic (hl : l < n) (b : Baseline) (k : Kind) :
    assignedType (b.heuristic n) (blockName l k) = some (heuristicRule n l b k) := by
  obtain ⟨hiq3, hq2, hiq2⟩ := parse_baseline_names
  cases b with
  | iq2_xs =>
    rw [Baseline.heuristic, iq2xsHeuristic, assignedType_hardcoded hl, heuristicRule]
    by_cases hv : k = .attnV
    · rw [if_pos hv, if_pos (.inl hv), hq2]
    by_cases hd : k = .ffnDown ∧ l < n / 8
    · rw [if_neg hv, if_pos hd, if_pos (.inr hd), hq2]
    · rw [if_neg hv, if_neg hd, if_neg (not_or.2 ⟨hv, hd⟩), hiq2]
  | iq2_s =>
    rw [Baseline.heuristic, iq2sHeuristic, assignedType_hardcoded hl, heuristicRule]
    by_cases hv : k = .attnV ∨ k = .attnOutput
    · rw [if_pos hv, if_pos (.inl hv), hiq3]
    by_cases hd : k = .ffnDown ∧ l < n / 8
    · rw [if_neg hv, if_pos hd, if_pos (.inr hd), hiq3]
    · rw [if_neg hv, if_neg hd, if_neg (not_or.2 ⟨hv, hd⟩), hiq2]

end Heuristic

section Visits
variable {m : Model} {p : Params} {qs qs' : QuantizeState} {tensor : Tensor}
  {tensors pre post : List Tensor} {search : List Char → List Char → Except String Bool}

/-- The tensors that move the counter of `ffn_down` weights. -/
def countsFfnDown (m : Model) (p : Params) (t : Tensor) : Bool :=
  quantizable m p t && contains "ffn_down" t.name

/-- A LLaMA-type model without experts or grouped heads, its tensors in the order of the layers;
only its blocks' own weights count as `ffn_down`. -/
structure DenseLlama (m : Model) (p : Params) (tensors : List Tensor) : Prop where
  experts : m.nExpert = 0
  heads : m.nGqa = 1
  others : ∀ t ∈ tensors,
    (∃ l k, BlockTensor m t l k ∧ 2 ≤ nDims t) ∨ countsFfnDown m p t = false
  names : (tensors.map fun t => t.name).Nodup
  complete : ∀ l < m.nLayer, ∃ t ∈ tensors, t.name = blockName l .ffnDown ∧ 2 ≤ nDims t
  byLayer : tensors.Pairwise fun t u => ∀ l l' k k',
    t.name = blockName l k → u.name = blockName l' k' → l ≤ l'

theorem countsFfnDown_block (h : BlockTensor m tensor l k) (hdims : 2 ≤ nDims tensor)
    (hcopy : p.onlyCopy = false) : countsFfnDown m p tensor = decide (k = .ffnDown) := by
  rw [countsFfnDown, quantizable_block h hcopy, decide_eq_true hdims, h.name, contains_ffnDown,
    Bool.true_and]

theorem DenseLlama.name_of_counts (h : DenseLlama m p tensors) (hcopy : p.onlyCopy = false)
    (ht : tensor ∈ tensors) (hcounts : countsFfnDown m p tensor = true) :
    ∃ l, tensor.name = blockName l .ffnDown := by
  rcases h.others tensor ht with ⟨l, k, hblock, hdims⟩ | hno
  · rw [countsFfnDown_block hblock hdims hcopy] at hcounts
    exact ⟨l, of_decide_eq_true hcounts ▸ hblock.name⟩
  · rw [hcounts] at hno
    cases hno

/-- Before a layer's `ffn_down` weight come those of the layers below, once each. -/
theorem DenseLlama.countP_before (h : DenseLlama m p (pre ++ tensor :: post))
    (hcopy : p.onlyCopy = false) (hname : tensor.name = blockName l .ffnDown)
    (hl : l < m.nLayer) : pre.countP (countsFfnDown m p) = l := by
  have hnodup := h.names
  rw [List.map_append, List.map_cons] at hnodup
  obtain ⟨hpre, _, hapart⟩ := List.nodup_append.1 hnodup
  obtain ⟨_, hpost, hbefore⟩ := List.pairwise_append.1 h.byLayer
  have hperm : ((pre.filter (countsFfnDown m p)).map (·.name)).Perm
      ((List.range l).map fun l => blockName l .ffnDown) := by
    apply (List.perm_ext_iff_of_nodup _ _).2
    · intro name
      constructor
      · intro hmem
        obtain ⟨t, ht, rfl⟩ := List.mem_map.1 hmem
        obtain ⟨ht, hcounts⟩ := List.mem_filter.1 ht
        obtain ⟨l', hl'⟩ := h.name_of_counts hcopy (List.mem_append_left _ ht) hcounts
        have hle : l' ≤ l := hbefore t ht tensor (.head _) l' l _ _ hl' hname
        have hne : l' ≠ l := by
          rintro rfl
          exact hapart _ (List.mem_map_of_mem ht) _ (.head _) (hl'.trans hname.symm)
        exact List.mem_map.2 ⟨l', List.mem_range.2 (Nat.lt_of_le_of_ne hle hne), hl'.symm⟩
      · intro hmem
        obtain ⟨l', hl', rfl⟩ := List.mem_map.1 hmem
        have hlt := List.mem_range.1 hl'
        obtain ⟨t, ht, hname', hdims⟩ := h.complete l' (hlt.trans hl)
        have hin : t ∈ pre := by
          rcases List.mem_append.1 ht with ht | ht
          · exact ht
          exfalso
          rcases List.mem_cons.1 ht with rfl | ht
          · exact absurd (blockName_injective (hname'.symm.trans hname)).1 hlt.ne
          · have hle := (List.pairwise_cons.1 hpost).1 t ht l l' _ _ hname hname'
            omega
        have hcounts : countsFfnDown m p t = true :=
          countsFfnDown_block ⟨hname', hlt.trans hl⟩ hdims hcopy
        rw [← hname']
        exact List.mem_map_of_mem (List.mem_filter.2 ⟨hin, hcounts⟩)
    · exact (List.Sublist.map _ List.filter_sublist).nodup hpre
    · exact List.nodup_range.map fun _ _ heq => (blockName_injective heq).1
  have hlen := hperm.length_eq
  rw [List.length_map, List.length_map, List.length_range, ← List.countP_eq_length_filter] at hlen
  exact hlen

theorem Baseline.isLowBit (b : Baseline) : isLowBit b.ftype = true := by
  cases b <;> rfl

theorem lowBitType_block_counts (t : GgmlType) (ftype : LlamaFtype) (l : Nat) (k : Kind) :
    (lowBitType m qs t ftype (blockName l k)).2.iFfnDown =
      qs.iFfnDown + if k = .ffnDown then 1 else 0 := by
  rw [lowBitType, contains_attnV, contains_attnK, contains_ffnDown, contains_attnOutput]
  cases k <;> simp only [reduceCtorEq, decide_true, decide_false, Bool.false_eq_true, and_true,
    and_false, if_true, if_false]
  all_goals split_ifs <;> rfl

theorem lowBitType_counts_none {name : List Char} (t : GgmlType) (ftype : LlamaFtype)
    (h : contains "ffn_down" name = false) :
    (lowBitType m qs t ftype name).2.iFfnDown = qs.iFfnDown := by
  simp only [lowBitType, h, Bool.false_eq_true, if_false]
  split_ifs <;> rfl

/-- In a low-bit preset only an `ffn_down` weight can move the counter. -/
theorem mixture_counts_none (hlow : isLowBit ftype = true)
    (h : contains "ffn_down" tensor.name = false) (hmix : mixture m p qs t ftype tensor = .ok r) :
    r.2.iFfnDown = qs.iFfnDown := by
  have hmoe : ftype ≠ .mxfp4Moe := by
    rintro rfl
    cases hlow
  rw [mixture, if_neg hmoe, if_pos hlow] at hmix
  split at hmix
  · cases hmix
    rfl
  split at hmix
  · cases hmix
    rfl
  · cases hmix
    exact lowBitType_counts_none t ftype h

theorem llamaTensorGetType_counts
    (h : llamaTensorGetType m p qs t tensor ftype = .ok (u, qs')) :
    ∃ r, mixture m p qs t ftype tensor = .ok r ∧ qs'.iFfnDown = r.2.iFfnDown := by
  obtain ⟨r, hmix, hfit⟩ := bind_eq_ok h
  refine ⟨r, hmix, ?_⟩
  rw [fitRows] at hfit
  split at hfit
  · obtain ⟨_, _, hu⟩ := map_eq_ok hfit
    cases hu
    rfl
  · cases hfit
    rfl

theorem DenseLlama.step_counts (h : DenseLlama m p tensors) (hlow : isLowBit p.ftype = true)
    (hpure : p.pure = false) (hcopy : p.onlyCopy = false) (hquant : dt.isQuantized = true)
    (ht : tensor ∈ tensors) (hcounts : LayerCounts m qs)
    (hstep : decideTensor search m p dt qs tensor = .ok (d, qs')) :
    qs'.iFfnDown = qs.iFfnDown + if countsFfnDown m p tensor then 1 else 0 := by
  rw [decideTensor] at hstep
  cases hgate : quantizable m p tensor with
  | false =>
    rw [hgate] at hstep
    cases hstep
    rw [countsFfnDown, hgate]
    rfl
  | true =>
    rw [if_pos hgate] at hstep
    obtain ⟨⟨u, qs₁⟩, hheur, hd⟩ := map_eq_ok hstep
    cases hd
    rw [heuristicType, if_pos ⟨by rw [hpure]; rfl, hquant⟩] at hheur
    obtain ⟨⟨u', qs₂⟩, hget, hover⟩ := bind_eq_ok hheur
    have hsame : qs₁ = qs₂ := by
      simp only at hover
      split at hover
      · obtain ⟨_, _, hv⟩ := map_eq_ok hover
        cases hv
        rfl
      · cases hover
        rfl
    obtain ⟨r, hmix, hr⟩ := llamaTensorGetType_counts hget
    rw [hsame, hr]
    rcases h.others tensor ht with ⟨l, k, hblock, hdims⟩ | hno
    · have hmoe : p.ftype ≠ .mxfp4Moe := by
        intro hmoe
        rw [hmoe] at hlow
        cases hlow
      rw [mixture_block p dt p.ftype hblock.name hblock.layer hcounts] at hmix
      obtain rfl := Except.ok.inj hmix
      rw [blockChoice, if_neg hmoe, if_pos hlow, lowBitType_block_counts,
        countsFfnDown_block hblock hdims hcopy]
      simp only [decide_eq_true_eq]
    · rw [countsFfnDown, hgate, Bool.true_and] at hno
      rw [mixture_counts_none hlow hno hmix, countsFfnDown, hgate, hno]
      rfl

end Visits

section Agree
variable {m : Model} {p : Params} {qs : QuantizeState} {tensor : Tensor} {dt : GgmlType}
  {pre post : List Tensor} {search : List Char → List Char → Except String Bool}
  {convert : Tensor → Decision → Except String Unit}

theorem DenseLlama.reached (h : DenseLlama m p (pre ++ tensor :: post))
    (hlow : isLowBit p.ftype = true) (hpure : p.pure = false) (hcopy : p.onlyCopy = false)
    (hquant : dt.isQuantized = true)
    (hrun : (traverse (decideTensor search m p dt) convert
      (initialState m true (pre ++ tensor :: post)) pre).2 = .ok qs) :
    LayerCounts m qs ∧ qs.iFfnDown = pre.countP (countsFfnDown m p) := by
  have hstart : LayerCounts m (initialState m true (pre ++ tensor :: post)) := ⟨rfl, rfl, rfl⟩
  obtain ⟨hcounts, hcount⟩ := traverse_counts (I := LayerCounts m) (f := (·.iFfnDown))
    (q := countsFfnDown m p) (fun ha hinv hstep =>
      ⟨hinv.of_sameTotals (decideTensor_sameTotals hstep),
        h.step_counts hlow hpure hcopy hquant (List.mem_append_left _ ha) hinv hstep⟩) hstart hrun
  exact ⟨hcounts, hcount.trans (Nat.zero_add _)⟩

/-- The quantiser's rule for the two presets, in a model without experts or grouped heads. -/
def presetRule (n l : Nat) : Baseline → Kind → GgmlType
  | .iq2_s, k => heuristicRule n l .iq2_s k
  | .iq2_xs, _ => .iq2_xs

theorem lowBitRule_baseline (hcounts : LayerCounts m qs) (hexperts : m.nExpert = 0)
    (hheads : m.nGqa = 1) (hdown : k = .ffnDown → qs.iFfnDown = l) (b : Baseline) :
    lowBitRule m qs .iq2_xs b.ftype k = presetRule m.nLayer l b k := by
  cases b with
  | iq2_xs => cases k <;> rfl
  | iq2_s =>
    cases k with
    | attnV =>
      rw [lowBitRule, hexperts, hheads]
      rfl
    | attnK =>
      rw [lowBitRule, hexperts]
      rfl
    | attnOutput =>
      rw [lowBitRule, hexperts]
      rfl
    | ffnDown =>
      rw [lowBitRule, hdown rfl, hcounts.nFfnDown]
      simp [Baseline.ftype, presetRule, heuristicRule]
    | attnQ | ffnGate | ffnUp => rfl

theorem heuristicRule_eq_presetRule_iff (b : Baseline) :
    heuristicRule n l b k = presetRule n l b k ↔ b.Copied n l k := by
  cases b with
  | iq2_s => simp only [presetRule, Baseline.Copied]
  | iq2_xs =>
    simp only [presetRule, heuristicRule, Baseline.Copied, ite_eq_right_iff, reduceCtorEq,
      imp_false, not_or, ne_eq]

theorem superBlock_heuristicRule (b : Baseline) :
    heuristicRule n l b k ∈ [GgmlType.iq2_xs, .iq3_s, .q2_K] := by
  cases b <;> rw [heuristicRule] <;> split_ifs <;> decide

theorem superBlock_presetRule (b : Baseline) :
    presetRule n l b k ∈ [GgmlType.iq2_xs, .iq3_s, .q2_K] := by
  cases b with
  | iq2_xs => exact .head _
  | iq2_s => exact superBlock_heuristicRule .iq2_s

/-- A type of super-blocks is kept exactly where it fills the rows. -/
theorem fitRows_superBlock (qs : QuantizeState) (ht : t ∈ [GgmlType.iq2_xs, .iq3_s, .q2_K])
    (nx : Nat) :
    ∃ u qs', fitRows qs t nx = .ok (u, qs') ∧
      ∀ w ∈ [GgmlType.iq2_xs, .iq3_s, .q2_K], w = u ↔ 256 ∣ nx ∧ w = t := by
  have hsize : t.blckSize = 256 := by
    revert t
    decide
  have hfall : fallbackType t = .ok .iq4_nl := by
    revert t
    decide
  by_cases hdvd : 256 ∣ nx
  · exact ⟨t, _, fitRows_of_dvd qs (hsize ▸ hdvd), fun w _ => by simp only [hdvd, true_and]⟩
  · have hmod : nx % t.blckSize ≠ 0 := by
      rw [hsize]
      exact fun h => hdvd (Nat.dvd_of_mod_eq_zero h)
    refine ⟨_, _, by rw [fitRows, if_pos hmod, hfall]; rfl, ?_⟩
    intro w hw
    simp only [hdvd, false_and, iff_false]
    split_ifs
    · revert w
      decide
    · revert w
      decide

variable (search convert pre post) in
/-- The heuristic gives a tensor the type that the preset chooses for it exactly where whole
super-blocks fill its rows and the heuristic still copies the preset. -/
theorem heuristic_eq_preset_iff (b : Baseline) (hftype : p.ftype = b.ftype)
    (hdef : defaultType p.ftype = some dt) (hpure : p.pure = false) (hcopy : p.onlyCopy = false)
    (hmodel : DenseLlama m p (pre ++ tensor :: post)) (htensor : BlockTensor m tensor l k)
    (hrun : (traverse (decideTensor search m p dt) convert
      (initialState m true (pre ++ tensor :: post)) pre).2 = .ok qs) :
    ∃ u qs', llamaTensorGetType m p qs dt tensor p.ftype = .ok (u, qs') ∧
      (assignedType (b.heuristic m.nLayer) tensor.name = some u ↔
        256 ∣ tensor.ne0 ∧ b.Copied m.nLayer l k) := by
  obtain rfl : dt = .iq2_xs := by
    rw [hftype] at hdef
    cases b <;> exact (Option.some.inj hdef).symm
  have hlow : isLowBit p.ftype = true := hftype ▸ b.isLowBit
  have hmoe : p.ftype ≠ .mxfp4Moe := by
    rw [hftype]
    cases b <;> decide
  obtain ⟨hcounts, hcount⟩ := hmodel.reached hlow hpure hcopy rfl hrun
  have hdown : k = .ffnDown → qs.iFfnDown = l := by
    rintro rfl
    rw [hcount]
    exact hmodel.countP_before hcopy htensor.name htensor.layer
  obtain ⟨u, qs', hfit, hu⟩ := fitRows_superBlock
    (blockChoice m qs .iq2_xs p.ftype tensor.ne2 l k).2
    (superBlock_presetRule b (n := m.nLayer) (l := l) (k := k)) tensor.ne0
  have hchoice : (blockChoice m qs .iq2_xs p.ftype tensor.ne2 l k).1 =
      presetRule m.nLayer l b k := by
    rw [blockChoice, if_neg hmoe, if_pos hlow, lowBitType_block, hftype,
      lowBitRule_baseline hcounts hmodel.experts hmodel.heads hdown]
  refine ⟨u, qs', ?_, ?_⟩
  · rw [llamaTensorGetType, mixture_block p _ _ htensor.name htensor.layer hcounts,
      Except.bind, hchoice, hfit]
  · rw [htensor.name, assignedType_heuristic htensor.layer, Option.some.injEq,
      hu _ (superBlock_heuristicRule b), heuristicRule_eq_presetRule_iff]

end Agree

section Instances

/-- A 256 by 256 weight of the first layer. -/
def firstLayer (k : Kind) : Tensor := ⟨blockName 0 k, .f16, 256, 256, 1, 1⟩

def iq2xsParams : Params where
  ftype := .iq2_xs
  outputTensorType := none
  tokenEmbeddingType := none
  quantizeOutputTensor := true
  onlyCopy := false
  pure := false
  tensorTypes := []

def eightLayers : Model := { tinyLlama with nLayer := 8 }

/-- A 256 by 256 down projection. -/
def layerDown (l : Nat) : Tensor := ⟨blockName l .ffnDown, .f16, 256, 256, 1, 1⟩

theorem denseLlama_downs (p : Params) : DenseLlama eightLayers p ((List.range 8).map layerDown) where
  experts := rfl
  heads := rfl
  others t ht := by
    obtain ⟨l, hl, rfl⟩ := List.mem_map.1 ht
    exact .inl ⟨l, .ffnDown, ⟨rfl, List.mem_range.1 hl⟩, le_refl 2⟩
  names := by
    rw [List.map_map]
    exact List.nodup_range.map fun l l' h => (blockName_injective h).1
  complete l hl := ⟨layerDown l, List.mem_map_of_mem (List.mem_range.2 hl), rfl, le_refl 2⟩
  byLayer := by
    rw [List.pairwise_map]
    apply List.pairwise_lt_range.imp
    intro a b hab l l' k k' hl hl'
    rw [← (blockName_injective (show blockName a .ffnDown = blockName l k from hl)).1,
      ← (blockName_injective (show blockName b .ffnDown = blockName l' k' from hl')).1]
    exact Nat.le_of_lt hab

/-- The second of eight layers, the first that is not upgraded. -/
theorem heuristic_eq_preset_iff_ffnDown :
    ∃ u qs', llamaTensorGetType eightLayers iq2xsParams
        { initialState eightLayers true ((List.range 8).map layerDown) with
          iFfnDown := 1, nKQuantized := 1 }
        .iq2_xs (layerDown 1) .iq2_xs = .ok (u, qs') ∧
      (assignedType (iq2xsHeuristic 8) (blockName 1 .ffnDown) = some u ↔
        256 ∣ 256 ∧ Baseline.Copied 8 1 .iq2_xs .ffnDown) :=
  heuristic_eq_preset_iff [layerDown 0] ((List.range' 2 6).map layerDown) dotSearch
    (fun _ _ => .ok ()) .iq2_xs rfl rfl rfl rfl (denseLlama_downs iq2xsParams)
    ⟨rfl, by decide⟩ rfl

/-- The preset leaves the first value projection at `IQ2_XS`; the heuristic says `Q2_K`. -/
theorem heuristic_upgrades_attnV :
    ¬ ∃ u qs', llamaTensorGetType tinyLlama iq2xsParams
        (initialState tinyLlama true [firstLayer .attnV, firstLayer .ffnDown])
        .iq2_xs (firstLayer .attnV) .iq2_xs = .ok (u, qs') ∧
      assignedType (iq2xsHeuristic 1) (blockName 0 .attnV) = some u := by
  rintro ⟨u, qs', hget, hsome⟩
  have hchosen : (llamaTensorGetType tinyLlama iq2xsParams
      (initialState tinyLlama true [firstLayer .attnV, firstLayer .ffnDown])
      .iq2_xs (firstLayer .attnV) .iq2_xs).map Prod.fst = .ok .iq2_xs := by
    decide +kernel
  have hassigned : assignedType (iq2xsHeuristic 1) (blockName 0 .attnV) = some .q2_K := by
    decide +kernel
  rw [hget] at hchosen
  rw [hassigned] at hsome
  cases hchosen
  cases hsome

end Instances
end ActQuant.Hsic
