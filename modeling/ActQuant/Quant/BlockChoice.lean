import ActQuant.Gguf.BlockTensor
import ActQuant.Quant.Decision

namespace ActQuant.Quant
open Lib Gguf

section Forced
variable (search : List Char → List Char → Except String Bool)

def matched (name : List Char) (o : TensorQuantization) : Bool :=
  match search o.name name with
  | .ok found => found
  | .error _ => false

/-- The type of the last override whose pattern is found in the name. -/
def lastMatch (name : List Char) (os : List TensorQuantization) : Option GgmlType :=
  (os.filter (matched search name)).getLast?.map (·.quant)

/-- The type the mixture picks is one whose blocks the rows fill. -/
def fitsDirectly (m : Model) (p : Params) (defaultTy : GgmlType) (qs : QuantizeState)
    (tensor : Tensor) : Bool :=
  match mixture m p qs defaultTy p.ftype tensor with
  | .ok r => tensor.ne0 % r.1.blckSize == 0
  | .error _ => false

/-- The type that a rule which does not look at the row length imposes on a tensor, if any. -/
def forcedType (m : Model) (p : Params) (defaultTy : GgmlType) (qs : QuantizeState)
    (tensor : Tensor) : Option GgmlType :=
  if tensor.name = "output.weight".toList ∧ p.outputTensorType.isSome then p.outputTensorType
  else if tensor.name = "token_embd.weight".toList ∧ p.tokenEmbeddingType.isSome then
    p.tokenEmbeddingType
  else if !p.pure ∧ defaultTy.isQuantized then
    if fitsDirectly m p defaultTy qs tensor then lastMatch search tensor.name p.tensorTypes
    else none
  else some defaultTy

/-- A type imposed on a tensor that is not of it already has blocks that the rows fill. -/
def ForcedFits (m : Model) (p : Params) (qs : QuantizeState) (tensor : Tensor) : Prop :=
  quantizable m p tensor = true → ∀ defaultTy, defaultType p.ftype = some defaultTy →
    ∀ t, forcedType search m p defaultTy qs tensor = some t → t ≠ tensor.type →
      t.blckSize ∣ tensor.ne0

variable {search} {m : Model} {p : Params} {qs qs' : QuantizeState} {tensor : Tensor}
  {defaultTy t : GgmlType}

theorem overrideType_eq {os : List TensorQuantization}
    (h : overrideType search name os t = .ok t') : t' = (lastMatch search name os).getD t := by
  induction os generalizing t with
  | nil =>
    cases h
    rfl
  | cons o os ih =>
    obtain ⟨found, hfound, hrest⟩ := bind_eq_ok h
    have hmatched : matched search name o = found := by rw [matched, hfound]
    rw [ih hrest]
    cases found with
    | false =>
      rw [lastMatch, lastMatch, List.filter_cons_of_neg (by rw [hmatched]; decide)]
      simp only [Bool.false_eq_true, false_and, if_false]
    | true =>
      have hcur : (if (true = true) ∧ o.quant ≠ t then o.quant else t) = o.quant := by
        by_cases he : o.quant = t
        · rw [he, ite_self]
        · rw [if_pos ⟨rfl, he⟩]
      rw [hcur, lastMatch, lastMatch, List.filter_cons_of_pos hmatched, List.getLast?_cons]
      cases (os.filter (matched search name)).getLast? <;> rfl

theorem fitsDirectly_of_mixture (h : mixture m p qs defaultTy p.ftype tensor = .ok r) :
    fitsDirectly m p defaultTy qs tensor = true ↔ r.1.blckSize ∣ tensor.ne0 := by
  rw [fitsDirectly, h]
  simp only [beq_iff_eq]
  exact ⟨Nat.dvd_of_mod_eq_zero, Nat.mod_eq_zero_of_dvd⟩

/-- A type chosen by name or by option is that one; any other has passed the row check. -/
theorem heuristicType_cases (h : heuristicType search m p defaultTy qs tensor = .ok (t, qs')) :
    (¬ (!p.pure ∧ defaultTy.isQuantized) ∧ t = defaultTy) ∨
      ((!p.pure ∧ defaultTy.isQuantized) ∧ fitsDirectly m p defaultTy qs tensor = true ∧
        lastMatch search tensor.name p.tensorTypes = some t) ∨
      ((!p.pure ∧ defaultTy.isQuantized) ∧ (fitsDirectly m p defaultTy qs tensor = true →
        lastMatch search tensor.name p.tensorTypes = none) ∧ t.blckSize ∣ tensor.ne0) := by
  rw [heuristicType] at h
  split at h
  · rename_i hgate
    obtain ⟨⟨u, qs''⟩, hget, h⟩ := bind_eq_ok h
    obtain ⟨r, hmix, _, hfall⟩ := llamaTensorGetType_eq hget
    have hfits : u.blckSize ∣ tensor.ne0 := llamaTensorGetType_fits hget
    by_cases hdvd : r.1.blckSize ∣ tensor.ne0
    · rw [if_pos (hfall.2 hdvd)] at h
      obtain ⟨u', hover, hu'⟩ := map_eq_ok h
      cases hu'
      have hlast := overrideType_eq hover
      cases hm : lastMatch search tensor.name p.tensorTypes with
      | none =>
        rw [hm, Option.getD_none] at hlast
        exact .inr (.inr ⟨hgate, fun _ => rfl, hlast ▸ hfits⟩)
      | some v =>
        rw [hm, Option.getD_some] at hlast
        exact .inr (.inl ⟨hgate, (fitsDirectly_of_mixture hmix).2 hdvd, by rw [hlast]⟩)
    · rw [if_neg fun h₀ => hdvd (hfall.1 h₀)] at h
      cases h
      refine .inr (.inr ⟨hgate, fun hdirect => ?_, hfits⟩)
      exact absurd ((fitsDirectly_of_mixture hmix).1 hdirect) hdvd
  · rename_i hgate
    cases h
    exact .inl ⟨hgate, rfl⟩

theorem decideTensor_fits_iff (hdef : defaultType p.ftype = some defaultTy)
    (h : decideTensor search m p defaultTy qs tensor = .ok (d, qs')) :
    (d.quantize = true → d.type.blckSize ∣ tensor.ne0) ↔
      ForcedFits search m p qs tensor := by
  rw [decideTensor] at h
  by_cases hq : quantizable m p tensor = true
  swap
  · rw [if_neg hq] at h
    cases h
    simp only [Bool.false_eq_true, false_imp_iff, ForcedFits, hq]
  rw [if_pos hq] at h
  obtain ⟨⟨t, qs''⟩, hheur, hd⟩ := map_eq_ok h
  cases hd
  have hiff : ForcedFits search m p qs tensor ↔
      ∀ t, forcedType search m p defaultTy qs tensor = some t → t ≠ tensor.type →
        t.blckSize ∣ tensor.ne0 := by
    simp only [ForcedFits, hq, true_imp_iff, hdef, Option.some.injEq, forall_eq']
  have hforced {u : GgmlType} (hu : forcedType search m p defaultTy qs tensor = some u)
      (hre : reassigned p tensor t = u) :
      ((decide (tensor.type ≠ reassigned p tensor t) = true →
        (reassigned p tensor t).blckSize ∣ tensor.ne0) ↔ ForcedFits search m p qs tensor) := by
    rw [hiff, hu, hre, decide_eq_true_eq]
    simp only [Option.some.injEq, forall_eq', ne_comm]
  have hchecked (hnone : forcedType search m p defaultTy qs tensor = none)
      (hre : reassigned p tensor t = t) (hfits : t.blckSize ∣ tensor.ne0) :
      ((decide (tensor.type ≠ reassigned p tensor t) = true →
        (reassigned p tensor t).blckSize ∣ tensor.ne0) ↔ ForcedFits search m p qs tensor) := by
    rw [hiff, hnone, hre]
    simp only [hfits, implies_true, reduceCtorEq, false_imp_iff]
  by_cases hout : tensor.name = "output.weight".toList ∧ p.outputTensorType.isSome
  · obtain ⟨u, hu⟩ := Option.isSome_iff_exists.1 hout.2
    apply hforced (u := u)
    · rw [forcedType, if_pos hout, hu]
    · rw [reassigned, if_pos hout.1, hu, Option.getD_some]
  by_cases hemb : tensor.name = "token_embd.weight".toList ∧ p.tokenEmbeddingType.isSome
  · obtain ⟨u, hu⟩ := Option.isSome_iff_exists.1 hemb.2
    have hne : tensor.name ≠ "output.weight".toList := by
      rw [hemb.1]
      decide
    apply hforced (u := u)
    · rw [forcedType, if_neg hout, if_pos hemb, hu]
    · rw [reassigned, if_pos hemb.1, if_neg hne, hu, Option.getD_some]
  have hkeep : reassigned p tensor t = t := by
    have hemb' : (if tensor.name = "token_embd.weight".toList
        then p.tokenEmbeddingType.getD t else t) = t := by
      split
      · rename_i hname
        rw [Option.not_isSome_iff_eq_none.1 fun hs => hemb ⟨hname, hs⟩, Option.getD_none]
      · rfl
    simp only [reassigned, hemb']
    split
    · rename_i hname
      rw [Option.not_isSome_iff_eq_none.1 fun hs => hout ⟨hname, hs⟩, Option.getD_none]
    · rfl
  rcases heuristicType_cases hheur with ⟨hgate, rfl⟩ | ⟨hgate, hdirect, hlast⟩ |
    ⟨hgate, hlast, hfits⟩
  · apply hforced _ hkeep
    rw [forcedType, if_neg hout, if_neg hemb, if_neg hgate]
  · apply hforced _ hkeep
    rw [forcedType, if_neg hout, if_neg hemb, if_pos hgate, if_pos hdirect, hlast]
  · apply hchecked _ hkeep hfits
    rw [forcedType, if_neg hout, if_neg hemb, if_pos hgate]
    split
    · rename_i hdirect
      exact hlast hdirect
    · rfl

end Forced

section Run
variable (search : List Char → List Char → Except String Bool)
  (convert : Tensor → Decision → Except String Unit) (m : Model) (p : Params) (hasImatrix : Bool)
  (tensors : List Tensor)

/-- No tensor is quantised in partial blocks exactly when every type forced on a visited tensor
fills its rows. -/
theorem blockSafe_iff :
    (∀ v ∈ (llamaModelQuantize search convert m p hasImatrix tensors).1,
        v.decision.quantize = true → v.decision.type.blckSize ∣ v.item.ne0) ↔
      ∀ v ∈ (llamaModelQuantize search convert m p hasImatrix tensors).1,
        ForcedFits search m p v.before v.item := by
  apply forall₂_congr
  intro v hv
  rw [llamaModelQuantize] at hv
  cases hdef : defaultType p.ftype with
  | none =>
    rw [hdef] at hv
    cases hv
  | some defaultTy =>
    rw [hdef] at hv
    obtain ⟨_, _, s', hstep⟩ := visits_invariant (I := fun _ => True)
      (fun _ _ => trivial) trivial hv
    exact decideTensor_fits_iff hdef hstep

def tinyLlama : Model where
  falcon := false
  hasOutputTn := true
  hasTokenEmbdTn := true
  hasPosEmbdTn := false
  hasTokenTypesTn := false
  nExpert := 0
  nGqa := 1
  nLayer := 1
  is70B := false

/-- `Q4_0` with `--tensor-type ffn_down=q4_k`. -/
def overridden : Params where
  ftype := .q4_0
  outputTensorType := none
  tokenEmbeddingType := none
  quantizeOutputTensor := true
  onlyCopy := false
  pure := false
  tensorTypes := [⟨"ffn_down".toList, .q4_K⟩]

def row288 : Tensor := ⟨"blk.0.ffn_down.weight".toList, .f16, 288, 256, 1, 1⟩

theorem override_partial_block :
    ¬ ∀ v ∈ (llamaModelQuantize dotSearch (fun _ _ => .ok ()) tinyLlama overridden false
        [row288]).1, v.decision.quantize = true → v.decision.type.blckSize ∣ v.item.ne0 := by
  decide

end Run

section Layer
variable {m : Model}

theorem scanInt_decimal (n : Nat) (rest : List Char) :
    scanInt (decimal n ++ '.' :: rest) = some (n : Int) := by
  have hrun : (decimal n ++ '.' :: rest).takeWhile Char.isDigit = decimal n := by
    rw [List.takeWhile_append_of_pos fun c hc => isDigit_of_mem_decimal hc,
      List.takeWhile_cons_of_neg (by decide), List.append_nil]
  have hdigits : scanDigits (decimal n ++ '.' :: rest) = some n := by
    rw [scanDigits, hrun, if_neg (decimal_ne_nil n)]
    exact congrArg some Nat.ofDigitChars_ten_toDigits
  obtain ⟨d, ds, hd⟩ : ∃ d ds, decimal n = d :: ds := by
    cases h : decimal n with
    | nil => exact absurd h (decimal_ne_nil n)
    | cons d ds => exact ⟨d, ds, rfl⟩
  have hdigit : d.isDigit = true := isDigit_of_mem_decimal (n := n) (hd ▸ .head _)
  have hspace : d.isWhitespace = false := by
    simp only [Char.isWhitespace, Bool.or_eq_false_iff, decide_eq_false_iff_not]
    refine ⟨⟨⟨?_, ?_⟩, ?_⟩, ?_⟩ <;> (rintro rfl; exact absurd hdigit (by decide))
  have hkeep : (decimal n ++ '.' :: rest).dropWhile Char.isWhitespace =
      decimal n ++ '.' :: rest := by
    rw [hd, List.cons_append, List.dropWhile_cons_of_neg (by rw [hspace]; decide)]
  rw [scanInt, hkeep]
  rw [hd, List.cons_append] at hdigits ⊢
  split
  · rename_i h
    cases h
    exact absurd hdigit (by decide)
  · rename_i h
    cases h
    exact absurd hdigit (by decide)
  · rw [hdigits, Option.map_some]

theorem scanLayer_blockName (l : Nat) (k : Kind) : scanLayer (blockName l k) = some (l : Int) := by
  have hpre : "blk.".toList.isPrefixOf (blockName l k) = true :=
    List.isPrefixOf_iff_prefix.2 (List.prefix_append _ _)
  rw [scanLayer, if_pos hpre, blockName, numbered, List.drop_left, scanInt_decimal]

/-- The layer a rule goes by: the counter, or in a model with experts the tensor's own. -/
def ruleLayer (m : Model) (i l : Nat) : Nat := if m.nExpert > 1 then l else i

theorem layerInfo_blockName (hl : l < n) (i : Nat) (k : Kind) :
    layerInfo m i n (blockName l k) = .ok (ruleLayer m i l, n) := by
  rw [layerInfo, ruleLayer]
  by_cases he : m.nExpert > 1
  · rw [if_pos (by omega), if_pos he, scanLayer_blockName]
    simp only
    rw [if_neg (by omega)]
    rfl
  · rw [if_neg (by omega), if_neg he]

end Layer

section Names
variable {l : Nat} {k : Kind}

theorem contains_part {needle : String} (h : skips needle "blk." = true)
    (htable : ∀ k : Kind, contains needle k.suffix = decide (k = k₀)) (l : Nat) (k : Kind) :
    contains needle (blockName l k) = decide (k = k₀) := by
  rw [contains_blockName h, htable]

theorem blockName_ne {s : List Char} (h : s.head? ≠ some 'b') : blockName l k ≠ s := by
  have hblk : "blk.".toList = ['b', 'l', 'k', '.'] := by decide
  rintro rfl
  apply h
  rw [blockName, numbered, hblk]
  rfl

theorem tn_head {name : String} (h : name.toList.head? ≠ some 'b')
    (hne : name.toList ≠ []) (present : Bool) : (tn present name).head? ≠ some 'b' := by
  rw [tn]
  cases present with
  | false =>
    rw [if_neg (by decide)]
    decide
  | true =>
    rw [if_pos rfl, List.head?_append_of_ne_nil _ hne]
    exact h

theorem blockName_ne_tn {name : String} (h : name.toList.head? ≠ some 'b')
    (hne : name.toList ≠ []) (present : Bool) : blockName l k ≠ tn present name :=
  blockName_ne (tn_head h hne present)

end Names

section Parts
variable (l : Nat) (k : Kind)

theorem contains_attnV : contains "attn_v.weight" (blockName l k) = decide (k = .attnV) :=
  contains_part (by decide) (by intro k; cases k <;> decide) l k

theorem contains_attnK : contains "attn_k.weight" (blockName l k) = decide (k = .attnK) :=
  contains_part (by decide) (by intro k; cases k <;> decide) l k

theorem contains_attnQ : contains "attn_q.weight" (blockName l k) = decide (k = .attnQ) :=
  contains_part (by decide) (by intro k; cases k <;> decide) l k

theorem contains_ffnDown : contains "ffn_down" (blockName l k) = decide (k = .ffnDown) :=
  contains_part (by decide) (by intro k; cases k <;> decide) l k

theorem contains_attnOutput :
    contains "attn_output.weight" (blockName l k) = decide (k = .attnOutput) :=
  contains_part (by decide) (by intro k; cases k <;> decide) l k

theorem contains_ffnGate : contains "ffn_gate" (blockName l k) = decide (k = .ffnGate) :=
  contains_part (by decide) (by intro k; cases k <;> decide) l k

theorem contains_ffnUp : contains "ffn_up" (blockName l k) = decide (k = .ffnUp) :=
  contains_part (by decide) (by intro k; cases k <;> decide) l k

theorem contains_attnQkv : contains "attn_qkv.weight" (blockName l k) = false := by
  rw [contains_blockName (by decide)]
  cases k <;> decide

end Parts

section Rule
variable (m : Model) (qs : QuantizeState) (newType : GgmlType) (ftype : LlamaFtype)

/-- The mixture's rule for each kind of block tensor, in the presets that are not low-bit. -/
def blockRule (l : Nat) : Kind → GgmlType × QuantizeState
  | .attnV => (attnVType m qs newType ftype, { qs with iAttentionWv := qs.iAttentionWv + 1 })
  | .attnK => (attnKType m newType ftype, qs)
  | .attnQ => (attnQType newType ftype, qs)
  | .ffnDown =>
    (ffnDownType m qs newType ftype (ruleLayer m qs.iFfnDown l) qs.nFfnDown,
      { qs with iFfnDown := qs.iFfnDown + 1 })
  | .attnOutput => (attnOutputType m newType ftype, qs)
  | .ffnGate =>
    (ffnGateType newType ftype (ruleLayer m qs.iFfnGate l) qs.nFfnGate,
      { qs with iFfnGate := qs.iFfnGate + 1 })
  | .ffnUp =>
    (ffnGateType newType ftype (ruleLayer m qs.iFfnUp l) qs.nFfnUp,
      { qs with iFfnUp := qs.iFfnUp + 1 })

/-- The choice for a block tensor, in any preset. -/
def blockChoice (ne2 l : Nat) (k : Kind) : GgmlType × QuantizeState :=
  if ftype = .mxfp4Moe then (if ne2 > 1 then .mxfp4 else .q8_0, qs)
  else if isLowBit ftype then lowBitType m qs newType ftype (blockName l k)
  else blockRule m qs newType ftype l k

variable {m qs newType ftype} {p : Params} {tensor : Tensor}

/-- The counts of layers that the rules divide by are the model's. -/
structure LayerCounts (m : Model) (qs : QuantizeState) : Prop where
  nFfnDown : qs.nFfnDown = m.nLayer
  nFfnGate : qs.nFfnGate = m.nLayer
  nFfnUp : qs.nFfnUp = m.nLayer

theorem LayerCounts.of_sameTotals (h : LayerCounts m qs) (hs : SameTotals qs qs') :
    LayerCounts m qs' where
  nFfnDown := hs.nFfnDown.trans h.nFfnDown
  nFfnGate := hs.nFfnGate.trans h.nFfnGate
  nFfnUp := hs.nFfnUp.trans h.nFfnUp

/-- On a block tensor of the model the mixture cannot fail, and goes by the tensor's kind. -/
theorem mixture_block (p : Params) (newType : GgmlType) (ftype : LlamaFtype)
    (hname : tensor.name = blockName l k) (hl : l < m.nLayer) (hcounts : LayerCounts m qs) :
    mixture m p qs newType ftype tensor =
      .ok (blockChoice m qs newType ftype tensor.ne2 l k) := by
  have houtput : ¬ (blockName l k = tn m.hasOutputTn "output" ∨
      (!qs.hasOutput ∧ blockName l k = tn m.hasTokenEmbdTn "token_embd")) := by
    rintro (h | ⟨_, h⟩)
    · exact blockName_ne_tn (by decide) (by decide) _ h
    · exact blockName_ne_tn (by decide) (by decide) _ h
  have hembd : ¬ (blockName l k = "token_embd.weight".toList ∨
      blockName l k = "per_layer_token_embd.weight".toList) := by
    rintro (h | h)
    · exact blockName_ne (by decide) h
    · exact blockName_ne (by decide) h
  rw [mixture, hname, blockChoice]
  rw [if_neg houtput, if_neg hembd, contains_attnV, contains_attnK, contains_attnQ,
    contains_ffnDown, contains_attnOutput, contains_ffnGate, contains_ffnUp, contains_attnQkv,
    layerInfo_blockName (hcounts.nFfnDown ▸ hl), layerInfo_blockName (hcounts.nFfnGate ▸ hl),
    layerInfo_blockName (hcounts.nFfnUp ▸ hl)]
  by_cases hmoe : ftype = .mxfp4Moe
  · rw [if_pos hmoe, if_pos hmoe]
  rw [if_neg hmoe, if_neg hmoe]
  by_cases hlow : isLowBit ftype = true
  · rw [if_pos hlow, if_pos hlow]
  rw [if_neg hlow, if_neg hlow]
  cases k <;> rfl

end Rule

section Closed
variable {m : Model} {qs : QuantizeState} {t : GgmlType} {ftype : LlamaFtype}
  {P : GgmlType → Prop}

/-- The types that the rules for block tensors name. -/
def ruleTypes : List GgmlType :=
  [.q2_K, .q3_K, .q4_K, .q5_K, .q6_K, .q8_0, .iq2_xxs, .iq2_s, .iq3_xxs, .iq3_s]

/-- A property of all the types that a preset's rules name. -/
structure Closed (P : GgmlType → Prop) (ftype : LlamaFtype) : Prop where
  rules : ∀ t ∈ ruleTypes, P t
  legacy : ftype = .q4_0 ∨ ftype = .q5_0 → P .q4_1 ∧ P .q5_1
  moe : ftype = .mxfp4Moe → P .mxfp4

theorem Closed.ite {c : Prop} [Decidable c] (ht : P t) (hu : P u) : P (if c then t else u) :=
  iteInduction (fun _ => ht) fun _ => hu

theorem Closed.ite_fst {c : Prop} [Decidable c] {r r' : GgmlType × QuantizeState}
    (hr : P r.1) (hr' : P r'.1) : P (if c then r else r').1 :=
  iteInduction (motive := fun r : GgmlType × QuantizeState => P r.1) (fun _ => hr) fun _ => hr'

variable (hc : Closed P ftype) (ht : P t)
include hc ht

theorem attnVType_closed : P (attnVType m qs t ftype) := by
  have hmix : P (attnVMix m qs t ftype) := by
    unfold attnVMix
    repeat' apply Closed.ite
    all_goals first | exact ht | exact hc.rules _ (by decide)
  rw [attnVType]
  apply Closed.ite
  · exact hc.rules _ (by decide)
  apply Closed.ite
  · exact hc.rules _ (by decide)
  · exact hmix

theorem attnKType_closed : P (attnKType m t ftype) := by
  unfold attnKType
  repeat' apply Closed.ite
  all_goals first | exact ht | exact hc.rules _ (by decide)

theorem attnQType_closed : P (attnQType t ftype) := by
  unfold attnQType
  repeat' apply Closed.ite
  all_goals first | exact ht | exact hc.rules _ (by decide)

theorem ffnDownType_closed (i n : Nat) : P (ffnDownType m qs t ftype i n) := by
  have hlegacy : P (if (ftype = .q4_0 ∨ ftype = .q5_0) ∧ qs.hasImatrix ∧ i < n / 8 then
      (if ftype = .q4_0 then .q4_1 else .q5_1) else t) := by
    split
    · rename_i h
      exact Closed.ite (hc.legacy h.1).1 (hc.legacy h.1).2
    · exact ht
  unfold ffnDownType
  repeat' first | exact hlegacy | apply Closed.ite
  all_goals first | exact ht | exact hc.rules _ (by decide)

theorem attnOutputType_closed : P (attnOutputType m t ftype) := by
  unfold attnOutputType
  repeat' apply Closed.ite
  all_goals first | exact ht | exact hc.rules _ (by decide)

theorem ffnGateType_closed (i n : Nat) : P (ffnGateType t ftype i n) := by
  unfold ffnGateType
  apply Closed.ite
  · exact hc.rules _ (by decide)
  · exact ht

theorem lowBitType_closed (name : List Char) : P (lowBitType m qs t ftype name).1 := by
  have hq4 : P .q4_K := hc.rules _ (by decide)
  unfold lowBitType
  repeat' apply Closed.ite_fst
  all_goals
    repeat' apply Closed.ite
    all_goals first | exact ht | exact hq4 | exact hc.rules _ (by decide)

theorem blockRule_closed (l : Nat) (k : Kind) : P (blockRule m qs t ftype l k).1 := by
  cases k with
  | attnQ => exact attnQType_closed hc ht
  | attnK => exact attnKType_closed hc ht
  | attnV => exact attnVType_closed hc ht
  | attnOutput => exact attnOutputType_closed hc ht
  | ffnGate => exact ffnGateType_closed hc ht _ _
  | ffnUp => exact ffnGateType_closed hc ht _ _
  | ffnDown => exact ffnDownType_closed hc ht _ _

theorem blockChoice_closed (ne2 l : Nat) (k : Kind) :
    P (blockChoice m qs t ftype ne2 l k).1 := by
  rw [blockChoice]
  split
  · rename_i hmoe
    exact Closed.ite (hc.moe hmoe) (hc.rules _ (by decide))
  apply Closed.ite_fst
  · exact lowBitType_closed hc ht _
  · exact blockRule_closed hc ht l k

end Closed

section Decide

def Fills (t : GgmlType) : Prop := t.blckSize ∣ 256

instance : Decidable (Fills t) := inferInstanceAs (Decidable (t.blckSize ∣ 256))

theorem fills_closed : Closed Fills ftype where
  rules := by decide
  legacy _ := by decide
  moe _ := by decide

variable {m : Model} {p : Params} {qs : QuantizeState} {tensor : Tensor} {defaultTy : GgmlType}
  {search : List Char → List Char → Except String Bool}

/-- A weight of one of the model's blocks. -/
structure BlockTensor (m : Model) (tensor : Tensor) (l : Nat) (k : Kind) : Prop where
  name : tensor.name = blockName l k
  layer : l < m.nLayer

/-- A matrix of a block, its rows made up of whole super-blocks of 256. -/
structure BlockMatrix (m : Model) (tensor : Tensor) (l : Nat) (k : Kind) : Prop extends
    BlockTensor m tensor l k where
  row : 256 ∣ tensor.ne0
  dims : 2 ≤ nDims tensor

theorem quantizable_block (h : BlockTensor m tensor l k) (hcopy : p.onlyCopy = false) :
    quantizable m p tensor = decide (2 ≤ nDims tensor) := by
  have hweight : endsWithWeight (blockName l k) = true := by
    have hsuffix : "weight".toList <:+ blockName l k := by
      have htail : "weight".toList <:+ ".weight".toList := ⟨['.'], by decide⟩
      have hkind : ".weight".toList <:+ k.suffix := List.suffix_append _ _
      have hdot : k.suffix <:+ '.' :: k.suffix := List.suffix_cons _ _
      have hnum : '.' :: k.suffix <:+ decimal l ++ '.' :: k.suffix := List.suffix_append _ _
      exact htail.trans (hkind.trans (hdot.trans (hnum.trans (List.suffix_append _ _))))
    rw [endsWithWeight, endsWith, List.isSuffixOf_iff_suffix.2 hsuffix, Bool.true_or]
  have hparts : (excludedParts.all fun part => !contains part (blockName l k)) = true := by
    apply List.all_eq_true.2
    intro part hpart
    have hskip : ∀ part ∈ excludedParts, skips part "blk." = true := by decide
    have hno : ∀ part ∈ excludedParts, contains part k.suffix = false := by
      cases k <;> decide
    rw [contains_blockName (hskip part hpart), hno part hpart]
    rfl
  have houtput : (blockName l k != "output.weight".toList) = true :=
    bne_iff_ne.2 (blockName_ne (by decide))
  have hpos : (blockName l k != tn m.hasPosEmbdTn "position_embd") = true :=
    bne_iff_ne.2 (blockName_ne_tn (by decide) (by decide) _)
  have htypes : (blockName l k != tn m.hasTokenTypesTn "token_types") = true :=
    bne_iff_ne.2 (blockName_ne_tn (by decide) (by decide) _)
  rw [quantizable, h.name, hweight, hparts, houtput, hpos, htypes, hcopy, Bool.or_true]
  simp only [Bool.true_and, Bool.and_true, Bool.not_false, ge_iff_le]

theorem reassigned_block (h : BlockTensor m tensor l k) (t : GgmlType) :
    reassigned p tensor t = t := by
  rw [reassigned, h.name, if_neg (blockName_ne (by decide)),
    if_neg (blockName_ne (by decide))]

theorem overrideType_of_search (hsearch : ∀ o ∈ os, ∃ found, search o.name name = .ok found)
    (t : GgmlType) :
    overrideType search name os t = .ok ((lastMatch search name os).getD t) := by
  have hends : ∃ u, overrideType search name os t = .ok u := by
    induction os generalizing t with
    | nil => exact ⟨t, rfl⟩
    | cons o os ih =>
      obtain ⟨found, hfound⟩ := hsearch o (.head _)
      rw [overrideType, hfound]
      exact ih (fun o ho => hsearch o (.tail _ ho)) _
  obtain ⟨u, hu⟩ := hends
  rw [hu, overrideType_eq hu]

theorem decideTensor_block (search : List Char → List Char → Except String Bool)
    (h : BlockMatrix m tensor l k) (hcounts : LayerCounts m qs)
    (hcopy : p.onlyCopy = false) (hpure : p.pure = false) (hquant : defaultTy.isQuantized = true)
    (hsearch : ∀ o ∈ p.tensorTypes, ∃ found, search o.name tensor.name = .ok found) :
    ∃ d qs', decideTensor search m p defaultTy qs tensor = .ok (d, qs') ∧
      d.type = (lastMatch search tensor.name p.tensorTypes).getD
        (blockChoice m qs defaultTy p.ftype tensor.ne2 l k).1 := by
  have hmix := mixture_block p defaultTy p.ftype h.name h.layer hcounts
  have hcounted := mixture_counted m p qs defaultTy p.ftype tensor _ hmix
  have hfills : Fills (blockChoice m qs defaultTy p.ftype tensor.ne2 l k).1 :=
    blockChoice_closed fills_closed (blckSize_dvd_of_isQuantized hquant) _ _ _
  generalize blockChoice m qs defaultTy p.ftype tensor.ne2 l k = r at hmix hcounted hfills ⊢
  have hget : llamaTensorGetType m p qs defaultTy tensor p.ftype =
      .ok (r.1, { r.2 with nKQuantized := r.2.nKQuantized + 1 }) := by
    rw [llamaTensorGetType, hmix]
    exact fitRows_of_dvd _ (hfills.trans h.row)
  have hheur : heuristicType search m p defaultTy qs tensor =
      .ok ((lastMatch search tensor.name p.tensorTypes).getD r.1,
        { r.2 with nKQuantized := r.2.nKQuantized + 1 }) := by
    have hfall : r.2.nFallback - qs.nFallback = 0 := by rw [hcounted.2, Nat.sub_self]
    rw [heuristicType, if_pos ⟨by rw [hpure]; rfl, hquant⟩, hget]
    simp only [Except.bind, hfall, if_true]
    rw [overrideType_of_search hsearch]
    rfl
  have hdecide : decideTensor search m p defaultTy qs tensor =
      .ok (⟨(lastMatch search tensor.name p.tensorTypes).getD r.1,
        decide (tensor.type ≠ (lastMatch search tensor.name p.tensorTypes).getD r.1)⟩,
        { r.2 with nKQuantized := r.2.nKQuantized + 1 }) := by
    have hgate : quantizable m p tensor = true := by
      rw [quantizable_block h.toBlockTensor hcopy, decide_eq_true h.dims]
    rw [decideTensor, if_pos hgate, hheur]
    simp only [Except.map, reassigned_block h.toBlockTensor]
  exact ⟨_, _, hdecide, rfl⟩

/-- What a decision for a block tensor can be, by its dimensions and the length of its rows. -/
theorem decideTensor_block_cases (h : BlockTensor m tensor l k) (hcounts : LayerCounts m qs)
    (hcopy : p.onlyCopy = false) (hpure : p.pure = false) (hquant : defaultTy.isQuantized = true)
    (hstep : decideTensor search m p defaultTy qs tensor = .ok (d, qs')) :
    (¬ 2 ≤ nDims tensor ∧ d.type = tensor.type) ∨
    (2 ≤ nDims tensor ∧
      (blockChoice m qs defaultTy p.ftype tensor.ne2 l k).1.blckSize ∣ tensor.ne0 ∧
      d.type = (lastMatch search tensor.name p.tensorTypes).getD
        (blockChoice m qs defaultTy p.ftype tensor.ne2 l k).1) ∨
    (2 ≤ nDims tensor ∧
      ¬ (blockChoice m qs defaultTy p.ftype tensor.ne2 l k).1.blckSize ∣ tensor.ne0 ∧
      ∃ t, fallbackType (blockChoice m qs defaultTy p.ftype tensor.ne2 l k).1 = .ok t ∧
        d.type = if tensor.ne0 % t.blckSize ≠ 0 then .f16 else t) := by
  rw [decideTensor, quantizable_block h hcopy] at hstep
  by_cases hdims : 2 ≤ nDims tensor
  swap
  · rw [decide_eq_false hdims, if_neg (by decide)] at hstep
    cases hstep
    exact .inl ⟨hdims, rfl⟩
  rw [decide_eq_true hdims, if_pos rfl] at hstep
  obtain ⟨⟨t, qs''⟩, hheur, hd⟩ := map_eq_ok hstep
  cases hd
  simp only [reassigned_block h]
  have hmix := mixture_block p defaultTy p.ftype h.name h.layer hcounts
  rw [heuristicType, if_pos ⟨by rw [hpure]; rfl, hquant⟩] at hheur
  obtain ⟨⟨u, qs₁⟩, hget, hover⟩ := bind_eq_ok hheur
  obtain ⟨r, hr, _, hfall⟩ := llamaTensorGetType_eq hget
  obtain rfl : _ = r := Except.ok.inj (hmix.symm.trans hr)
  rw [llamaTensorGetType, hmix] at hget
  generalize blockChoice m qs defaultTy p.ftype tensor.ne2 l k = r at hget hfall ⊢
  by_cases hdvd : r.1.blckSize ∣ tensor.ne0
  · rw [if_pos (hfall.2 hdvd)] at hover
    obtain ⟨v, hv, hv'⟩ := map_eq_ok hover
    cases hv'
    have hfit := fitRows_of_dvd r.2 hdvd
    rw [Except.bind, hfit] at hget
    cases hget
    exact .inr (.inl ⟨hdims, hdvd, overrideType_eq hv⟩)
  · rw [if_neg fun h₀ => hdvd (hfall.1 h₀)] at hover
    cases hover
    rw [Except.bind, fitRows, if_pos fun hmod => hdvd (Nat.dvd_of_mod_eq_zero hmod)] at hget
    obtain ⟨v, hv, hv'⟩ := map_eq_ok hget
    cases hv'
    exact .inr (.inr ⟨hdims, hdvd, v, hv, rfl⟩)

theorem lastMatch_eq_some {os : List TensorQuantization} (ho : o ∈ os)
    (hmatch : matched search name o = true)
    (hunique : ∀ o' ∈ os, matched search name o' = true → o'.quant = o.quant) :
    lastMatch search name os = some o.quant := by
  rw [lastMatch]
  cases hlast : (os.filter (matched search name)).getLast? with
  | none =>
    have hnil := List.getLast?_eq_none_iff.1 hlast
    exact absurd (List.mem_filter.2 ⟨ho, hmatch⟩) (hnil ▸ List.not_mem_nil)
  | some o' =>
    obtain ⟨ho', hmatch'⟩ := List.mem_filter.1 (List.mem_of_getLast? hlast)
    rw [Option.map_some, hunique o' ho' hmatch']

theorem lastMatch_eq_none {os : List TensorQuantization}
    (h : ∀ o ∈ os, matched search name o = false) : lastMatch search name os = none := by
  have hnil : os.filter (matched search name) = [] := by
    apply List.filter_eq_nil_iff.2
    intro o ho
    rw [h o ho]
    decide
  rw [lastMatch, hnil]
  rfl

end Decide
end ActQuant.Quant
