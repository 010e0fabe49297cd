import ActQuant.Quant.BlockChoice

namespace ActQuant.Quant
open Lib Gguf

/-- The preset that a type's name selects when it is given as the base type. -/
def presetFtype : GgmlType → Option LlamaFtype
  | .iq1_s => some .iq1_s
  | .iq1_m => some .iq1_m
  | .iq2_xxs => some .iq2_xxs
  | .iq2_xs => some .iq2_xs
  | .iq2_s => some .iq2_s
  | .q2_K => some .q2_K
  | .iq3_xxs => some .iq3_xxs
  | .iq3_s => some .iq3_s
  | .q3_K => some .q3_K_M
  | .iq4_xs => some .iq4_xs
  | .q4_K => some .q4_K_M
  | .q5_K => some .q5_K_M
  | .q6_K => some .q6_K
  | .q8_0 => some .q8_0
  | _ => none

section Keeps
variable (m : Model) (qs : QuantizeState)

def attnVKeeps : GgmlType → Prop
  | .iq2_xs | .q8_0 => True
  | .iq3_xxs => m.nGqa < 4 ∧ qs.hasImatrix = true ∧ m.nExpert ≠ 8
  | .iq3_s | .iq4_xs => m.nGqa < 4 ∧ m.nExpert ≠ 8
  | .q4_K =>
    useMoreBits qs.iAttentionWv qs.nAttentionWv = false ∧ m.is70B = false ∧ m.nExpert ≠ 8
  | .q5_K => useMoreBits qs.iAttentionWv qs.nAttentionWv = false ∧ m.nExpert ≠ 8
  | .q6_K => m.nExpert ≠ 8
  | _ => False

def attnKKeeps : GgmlType → Prop
  | .iq2_xs | .q8_0 => True
  | .iq2_s | .iq3_xxs => False
  | _ => m.nExpert ≠ 8

def attnQKeeps : GgmlType → Prop
  | .iq2_s | .iq3_xxs => False
  | _ => True

def ffnGateKeeps : GgmlType → Prop
  | .iq2_s => False
  | _ => True

def ffnDownKeeps (i n : Nat) : GgmlType → Prop
  | .iq1_s | .iq1_m | .iq2_xxs => n / 8 ≤ qs.iFfnDown
  | .iq2_s | .q2_K => False
  | .iq3_xxs => qs.hasImatrix = true
  | .q3_K => m.falcon = true ∧ n / 16 ≤ i ∧ useMoreBits i n = false
  | .q4_K => useMoreBits i n = false ∧ (m.falcon = true → n / 16 ≤ i)
  | .iq4_xs => n / 8 ≤ i ∨ qs.hasImatrix = true
  | .q5_K => useMoreBits i n = false
  | _ => True

def attnOutputKeeps : GgmlType → Prop
  | .iq1_s | .iq1_m | .iq2_s => False
  | .iq2_xxs => m.nExpert ≠ 8
  | .q2_K | .iq3_xxs | .q3_K => m.falcon = true
  | .q4_K | .iq3_s | .iq4_xs => m.falcon = true ∨ m.nExpert ≠ 8
  | _ => True

/-- The condition under which the heuristic leaves a block tensor at the base type. -/
def KeepsBase (t : GgmlType) (l : Nat) : Kind → Prop
  | .attnV => attnVKeeps m qs t
  | .attnK => attnKKeeps m t
  | .attnQ => attnQKeeps t
  | .attnOutput => attnOutputKeeps m t
  | .ffnGate | .ffnUp => ffnGateKeeps t
  | .ffnDown => ffnDownKeeps m qs (ruleLayer m qs.iFfnDown l) qs.nFfnDown t

end Keeps

section Rules
variable {m : Model} {qs : QuantizeState} {t dt : GgmlType} {ftype : LlamaFtype}

def lowBitRule (m : Model) (qs : QuantizeState) (newType : GgmlType) (ftype : LlamaFtype) :
    Kind → GgmlType
  | .attnV =>
    if ftype = .iq2_xs then newType
    else if m.nGqa ≥ 4 ∨ m.nExpert ≥ 4 then .q4_K
    else if ftype = .iq2_s ∨ ftype = .iq2_m then .iq3_s else .q2_K
  | .attnK => if ftype = .iq2_xs then newType else if m.nExpert = 8 then .q4_K else newType
  | .ffnDown =>
    if ftype = .iq2_xs then newType
    else if qs.iFfnDown < qs.nFfnDown / 8 then
      (if ftype = .iq2_s ∨ ftype = .iq2_m then .iq3_s else .q2_K)
    else newType
  | .attnOutput =>
    if ftype = .iq2_xs then newType
    else if m.nExpert = 8 then .q5_K
    else if ftype = .iq1_s ∨ ftype = .iq1_m then .iq2_xxs
    else if ftype = .iq2_s ∨ ftype = .iq2_m then .iq3_s
    else newType
  | .attnQ | .ffnGate | .ffnUp => newType

theorem lowBitType_block (l : Nat) (k : Kind) :
    (lowBitType m qs t ftype (blockName l k)).1 = lowBitRule m qs t ftype k := by
  rw [lowBitType, contains_attnV, contains_attnK, contains_ffnDown, contains_attnOutput]
  by_cases h : ftype = .iq2_xs
  · rw [if_pos h]
    cases k <;> simp only [lowBitRule, if_pos h]
  rw [if_neg h]
  cases k <;> simp only [lowBitRule, if_neg h, reduceCtorEq, decide_true, decide_false,
    Bool.false_eq_true, and_true, and_false, if_true, if_false]
  split_ifs <;> rfl

theorem attnVType_keeps_iff (h : presetFtype t = some ftype) (hlow : isLowBit ftype = false) :
    attnVType m qs t ftype = t ↔ attnVKeeps m qs t := by
  cases t <;> cases h <;> cases hlow <;> grind [attnVType, attnVMix, attnVKeeps]

theorem attnKType_keeps_iff (h : presetFtype t = some ftype) (hlow : isLowBit ftype = false) :
    attnKType m t ftype = t ↔ attnKKeeps m t := by
  cases t <;> cases h <;> cases hlow <;> grind [attnKType, attnKKeeps]

theorem attnQType_keeps_iff (h : presetFtype t = some ftype) (hlow : isLowBit ftype = false) :
    attnQType t ftype = t ↔ attnQKeeps t := by
  cases t <;> cases h <;> cases hlow <;> grind [attnQType, attnQKeeps]

theorem ffnDownType_keeps_iff (h : presetFtype t = some ftype) (hlow : isLowBit ftype = false) :
    ffnDownType m qs t ftype i n = t ↔ ffnDownKeeps m qs i n t := by
  cases t <;> cases h <;> cases hlow <;> grind [ffnDownType, ffnDownKeeps]

theorem attnOutputType_keeps_iff (h : presetFtype t = some ftype)
    (hlow : isLowBit ftype = false) :
    attnOutputType m t ftype = t ↔ attnOutputKeeps m t := by
  cases t <;> cases h <;> cases hlow <;> grind [attnOutputType, attnOutputKeeps]

theorem ffnGateType_keeps_iff (h : presetFtype t = some ftype) (hlow : isLowBit ftype = false) :
    ffnGateType t ftype i n = t ↔ ffnGateKeeps t := by
  cases t <;> cases h <;> cases hlow <;> grind [ffnGateType, ffnGateKeeps]

theorem lowBitRule_keeps_iff (h : presetFtype t = some ftype) (hdef : defaultType ftype = some dt)
    (hlow : isLowBit ftype = true) (l : Nat) (k : Kind) :
    lowBitRule m qs dt ftype k = t ↔ KeepsBase m qs t l k := by
  cases t <;> cases h <;> cases hlow <;> cases hdef <;> cases k
  all_goals grind [lowBitRule, KeepsBase, attnVKeeps, attnKKeeps, attnQKeeps, ffnGateKeeps,
    ffnDownKeeps, attnOutputKeeps]

theorem presetFtype_default (h : presetFtype t = some ftype) (hlow : isLowBit ftype = false) :
    defaultType ftype = some t := by
  cases t <;> cases h <;> cases hlow <;> rfl

/-- The preset leaves a block tensor at the base type exactly under `KeepsBase`. -/
theorem blockChoice_keeps_iff (h : presetFtype t = some ftype)
    (hdef : defaultType ftype = some dt) (ne2 l : Nat) (k : Kind) :
    (blockChoice m qs dt ftype ne2 l k).1 = t ↔ KeepsBase m qs t l k := by
  have hmoe : ftype ≠ .mxfp4Moe := by
    cases t <;> cases h <;> decide
  rw [blockChoice, if_neg hmoe]
  cases hlow : isLowBit ftype with
  | true =>
    rw [if_pos rfl, lowBitType_block]
    exact lowBitRule_keeps_iff h hdef hlow l k
  | false =>
    obtain rfl : t = dt := Option.some.inj ((presetFtype_default h hlow).symm.trans hdef)
    rw [if_neg (by decide)]
    cases k with
    | attnQ => exact attnQType_keeps_iff h hlow
    | attnK => exact attnKType_keeps_iff h hlow
    | attnV => exact attnVType_keeps_iff h hlow
    | attnOutput => exact attnOutputType_keeps_iff h hlow
    | ffnGate => exact ffnGateType_keeps_iff h hlow
    | ffnUp => exact ffnGateType_keeps_iff h hlow
    | ffnDown => exact ffnDownType_keeps_iff h hlow

end Rules

section Rows
variable {m : Model} {qs : QuantizeState} {t u w dt : GgmlType} {ftype : LlamaFtype}

/-- `Q8_0`, or a type of super-blocks. -/
def Coarse (t : GgmlType) : Prop := t = .q8_0 ∨ t.blckSize = 256

instance : Decidable (Coarse t) := inferInstanceAs (Decidable (t = .q8_0 ∨ t.blckSize = 256))

/-- Where a preset with a coarse default picks `Q8_0` for a block tensor. -/
def PicksQ8 (m : Model) (ftype : LlamaFtype) (k : Kind) : Prop :=
  ftype = .q8_0 ∨ m.nExpert = 8 ∧ isLowBit ftype = false ∧ (k = .attnV ∨ k = .attnK)

def PicksQ6 (m : Model) (qs : QuantizeState) (ftype : LlamaFtype) (l : Nat) : Kind → Prop
  | .attnV =>
    m.nExpert ≠ 8 ∧ (ftype = .q6_K ∨ (ftype = .q4_K_M ∨ ftype = .q5_K_M) ∧
      useMoreBits qs.iAttentionWv qs.nAttentionWv = true)
  | .attnK => m.nExpert ≠ 8 ∧ ftype = .q6_K
  | .ffnDown =>
    ftype = .q6_K ∨ if ftype = .q4_K_M ∧ m.falcon = true
      then ruleLayer m qs.iFfnDown l < qs.nFfnDown / 16
      else (ftype = .q4_K_M ∨ ftype = .q5_K_M) ∧
        useMoreBits (ruleLayer m qs.iFfnDown l) qs.nFfnDown = true
  | .attnQ | .attnOutput | .ffnGate | .ffnUp => ftype = .q6_K

/-- The rows are filled by what the preset picks for a block tensor. -/
def FillsRows (m : Model) (ftype : LlamaFtype) (k : Kind) (ne0 : Nat) : Prop :=
  256 ∣ ne0 ∨ 32 ∣ ne0 ∧ PicksQ8 m ftype k

theorem coarse_closed (hdef : defaultType ftype = some dt) (hdt : Coarse dt) :
    Closed Coarse ftype where
  rules := by decide
  legacy h := by
    rcases h with rfl | rfl <;> cases hdef <;> exact absurd hdt (by decide)
  moe h := by
    cases h
    cases hdef
    exact absurd hdt (by decide)

theorem not_mxfp4Moe_of_coarse (hdef : defaultType ftype = some dt) (hdt : Coarse dt) :
    ftype ≠ .mxfp4Moe := by
  rintro rfl
  cases hdef
  exact absurd hdt (by decide)

theorem blockRule_eq_q8_0_iff (hdef : defaultType ftype = some dt)
    (hlow : isLowBit ftype = false) (l : Nat) (k : Kind) :
    (blockRule m qs dt ftype l k).1 = .q8_0 ↔ PicksQ8 m ftype k := by
  cases k <;> simp only [blockRule]
  all_goals
    cases ftype <;> cases hdef <;> cases hlow
    all_goals grind [attnVType, attnVMix, attnKType, attnQType, ffnDownType, attnOutputType,
      ffnGateType, PicksQ8, isLowBit]

theorem blockRule_eq_q6_K_iff (hdef : defaultType ftype = some dt)
    (hlow : isLowBit ftype = false) (l : Nat) (k : Kind) :
    (blockRule m qs dt ftype l k).1 = .q6_K ↔ PicksQ6 m qs ftype l k := by
  cases k <;> simp only [blockRule]
  all_goals
    cases ftype <;> cases hdef <;> cases hlow
    all_goals grind [attnVType, attnVMix, attnKType, attnQType, ffnDownType, attnOutputType,
      ffnGateType, PicksQ6]

theorem lowBitRule_picks (hdef : defaultType ftype = some dt) (hlow : isLowBit ftype = true)
    (l : Nat) (k : Kind) :
    (lowBitRule m qs dt ftype k = .q8_0 ↔ PicksQ8 m ftype k) ∧
      (lowBitRule m qs dt ftype k = .q6_K ↔ PicksQ6 m qs ftype l k) := by
  cases ftype <;> cases hlow <;> cases hdef <;> cases k
  all_goals grind [lowBitRule, PicksQ8, PicksQ6, isLowBit]

theorem blockChoice_picks (m : Model) (qs : QuantizeState)
    (hdef : defaultType ftype = some dt) (hdt : Coarse dt) (ne2 l : Nat) (k : Kind) :
    ((blockChoice m qs dt ftype ne2 l k).1 = .q8_0 ↔ PicksQ8 m ftype k) ∧
      ((blockChoice m qs dt ftype ne2 l k).1 = .q6_K ↔ PicksQ6 m qs ftype l k) := by
  rw [blockChoice, if_neg (not_mxfp4Moe_of_coarse hdef hdt)]
  cases hlow : isLowBit ftype with
  | true =>
    rw [if_pos rfl, lowBitType_block]
    exact lowBitRule_picks hdef hlow l k
  | false =>
    rw [if_neg (by decide)]
    exact ⟨blockRule_eq_q8_0_iff hdef hlow l k, blockRule_eq_q6_K_iff hdef hlow l k⟩

theorem blockChoice_fills_iff (m : Model) (qs : QuantizeState)
    (hdef : defaultType ftype = some dt) (hdt : Coarse dt) (ne0 ne2 l : Nat) (k : Kind) :
    (blockChoice m qs dt ftype ne2 l k).1.blckSize ∣ ne0 ↔ FillsRows m ftype k ne0 := by
  have hcoarse : Coarse (blockChoice m qs dt ftype ne2 l k).1 :=
    blockChoice_closed (coarse_closed hdef hdt) hdt ne2 l k
  rw [FillsRows, ← (blockChoice_picks m qs hdef hdt ne2 l k).1]
  generalize (blockChoice m qs dt ftype ne2 l k).1 = u at hcoarse ⊢
  have hsize : GgmlType.q8_0.blckSize = 32 := rfl
  rcases hcoarse with rfl | h
  · rw [hsize]
    simp only [and_true]
    omega
  · rw [h]
    refine ⟨.inl, ?_⟩
    rintro (hdvd | ⟨_, rfl⟩)
    · exact hdvd
    · exact absurd h (by decide)

/-- A fallback ends at a type that is a preset's only where `Q6_K` gives way to `Q8_0`. -/
theorem fallback_eq_iff (hw : (presetFtype w).isSome = true) (hu : fallbackType u = .ok t) :
    (if ne0 % t.blckSize ≠ 0 then .f16 else t) = w ↔ 32 ∣ ne0 ∧ w = .q8_0 ∧ u = .q6_K := by
  have hf16 : w ≠ .f16 := by
    rintro rfl
    exact absurd hw (by decide)
  have hsize : t.blckSize = 32 := by
    cases u <;> cases hu <;> rfl
  have ht : t = w ↔ w = .q8_0 ∧ u = .q6_K := by
    cases u <;> cases hu
    all_goals
      refine ⟨?_, ?_⟩
      · rintro rfl
        first | exact ⟨rfl, rfl⟩ | exact absurd hw (by decide)
      · rintro ⟨rfl, h⟩
        first | rfl | cases h
  rw [hsize, Nat.dvd_iff_mod_eq_zero]
  by_cases h : ne0 % 32 = 0
  · rw [if_neg (not_not.2 h), ht]
    simp only [h, true_and]
  · rw [if_pos h]
    simp only [h, false_and, hf16.symm]

/-- When a block tensor ends up with the type meant for it: `w`, by an override or left to the
preset. -/
def EndsAs (m : Model) (qs : QuantizeState) (ftype : LlamaFtype) (tensor : Tensor) (l : Nat)
    (k : Kind) (w : GgmlType) (overridden : Prop) : Prop :=
  (¬ 2 ≤ nDims tensor ∧ tensor.type = w) ∨
  (2 ≤ nDims tensor ∧ FillsRows m ftype k tensor.ne0 ∧ (overridden ∨ KeepsBase m qs w l k)) ∨
  (2 ≤ nDims tensor ∧ ¬ FillsRows m ftype k tensor.ne0 ∧ 32 ∣ tensor.ne0 ∧ w = .q8_0 ∧
    PicksQ6 m qs ftype l k)

end Rows

section Decide
variable {m : Model} {p : Params} {qs qs' : QuantizeState} {tensor : Tensor} {dt w : GgmlType}
  {search : List Char → List Char → Except String Bool}

theorem decideTensor_endsAs_iff (h : BlockTensor m tensor l k) (hcounts : LayerCounts m qs)
    (hcopy : p.onlyCopy = false) (hpure : p.pure = false) (hquant : dt.isQuantized = true)
    (hdef : defaultType p.ftype = some dt) (hdt : Coarse dt)
    (hw : (presetFtype w).isSome = true) {overridden : Prop}
    (hlisted : overridden → lastMatch search tensor.name p.tensorTypes = some w)
    (hunlisted : ¬ overridden → lastMatch search tensor.name p.tensorTypes = none ∧
      presetFtype w = some p.ftype)
    (hstep : decideTensor search m p dt qs tensor = .ok (d, qs')) :
    d.type = w ↔ EndsAs m qs p.ftype tensor l k w overridden := by
  have hfills := blockChoice_fills_iff m qs hdef hdt tensor.ne0 tensor.ne2 l k
  rcases decideTensor_block_cases h hcounts hcopy hpure hquant hstep with
    ⟨hdims, htype⟩ | ⟨hdims, hdvd, htype⟩ | ⟨hdims, hdvd, t, hfall, htype⟩
  · simp only [EndsAs, hdims, htype, not_false_eq_true, true_and, false_and, or_false]
  · rw [hfills] at hdvd
    simp only [EndsAs, hdims, hdvd, not_true_eq_false, true_and, false_and, or_false, false_or]
    by_cases ho : overridden
    · rw [htype, hlisted ho]
      simp only [Option.getD_some, ho, true_or]
    · obtain ⟨hnone, hpreset⟩ := hunlisted ho
      rw [htype, hnone, Option.getD_none, blockChoice_keeps_iff hpreset hdef]
      simp only [ho, false_or]
  · rw [hfills] at hdvd
    rw [htype, fallback_eq_iff hw hfall, (blockChoice_picks m qs hdef hdt tensor.ne2 l k).2]
    simp only [EndsAs, hdims, hdvd, not_true_eq_false, not_false_eq_true, true_and, false_and,
      false_or]

end Decide
end ActQuant.Quant
