import Mathlib.Tactic.TypeStar

namespace ActQuant.Quant

/-- `ggml_type`, the removed types between the others included. -/
inductive GgmlType where
  | f32 | f16 | q4_0 | q4_1 | q4_2 | q4_3 | q5_0 | q5_1 | q8_0 | q8_1
  | q2_K | q3_K | q4_K | q5_K | q6_K | q8_K
  | iq2_xxs | iq2_xs | iq3_xxs | iq1_s | iq4_nl | iq3_s | iq2_s | iq4_xs
  | i8 | i16 | i32 | i64 | f64 | iq1_m | bf16 | q4_0_4_4 | q4_0_4_8 | q4_0_8_8
  | tq1_0 | tq2_0 | iq4_nl_4_4 | iq4_nl_4_8 | iq4_nl_8_8 | mxfp4
  deriving DecidableEq

/-- The types in the order of their numbers. -/
def GgmlType.all : List GgmlType :=
  [.f32, .f16, .q4_0, .q4_1, .q4_2, .q4_3, .q5_0, .q5_1, .q8_0, .q8_1,
   .q2_K, .q3_K, .q4_K, .q5_K, .q6_K, .q8_K,
   .iq2_xxs, .iq2_xs, .iq3_xxs, .iq1_s, .iq4_nl, .iq3_s, .iq2_s, .iq4_xs,
   .i8, .i16, .i32, .i64, .f64, .iq1_m, .bf16, .q4_0_4_4, .q4_0_4_8, .q4_0_8_8,
   .tq1_0, .tq2_0, .iq4_nl_4_4, .iq4_nl_4_8, .iq4_nl_8_8, .mxfp4]

/-- `ggml_type_traits`, as far as the choice of types reads them. -/
structure TypeTraits where
  typeName : String
  blckSize : Nat
  typeSize : Nat
  isQuantized : Bool

/-- The row of `type_traits` for a type; the sizes of the blocks are those their struct
definitions assert. -/
def GgmlType.traits : GgmlType → TypeTraits
  | .i8 => ⟨"i8", 1, 1, false⟩
  | .i16 => ⟨"i16", 1, 2, false⟩
  | .i32 => ⟨"i32", 1, 4, false⟩
  | .i64 => ⟨"i64", 1, 8, false⟩
  | .f64 => ⟨"f64", 1, 8, false⟩
  | .f32 => ⟨"f32", 1, 4, false⟩
  | .f16 => ⟨"f16", 1, 2, false⟩
  | .q4_0 => ⟨"q4_0", 32, 18, true⟩
  | .q4_1 => ⟨"q4_1", 32, 20, true⟩
  | .q4_2 => ⟨"DEPRECATED", 0, 0, false⟩
  | .q4_3 => ⟨"DEPRECATED", 0, 0, false⟩
  | .q5_0 => ⟨"q5_0", 32, 22, true⟩
  | .q5_1 => ⟨"q5_1", 32, 24, true⟩
  | .q8_0 => ⟨"q8_0", 32, 34, true⟩
  | .q8_1 => ⟨"q8_1", 32, 36, true⟩
  | .mxfp4 => ⟨"mxfp4", 32, 17, true⟩
  | .q2_K => ⟨"q2_K", 256, 84, true⟩
  | .q3_K => ⟨"q3_K", 256, 110, true⟩
  | .q4_K => ⟨"q4_K", 256, 144, true⟩
  | .q5_K => ⟨"q5_K", 256, 176, true⟩
  | .q6_K => ⟨"q6_K", 256, 210, true⟩
  | .iq2_xxs => ⟨"iq2_xxs", 256, 66, true⟩
  | .iq2_xs => ⟨"iq2_xs", 256, 74, true⟩
  | .iq3_xxs => ⟨"iq3_xxs", 256, 98, true⟩
  | .iq3_s => ⟨"iq3_s", 256, 110, true⟩
  | .iq2_s => ⟨"iq2_s", 256, 82, true⟩
  | .iq1_s => ⟨"iq1_s", 256, 50, true⟩
  | .iq1_m => ⟨"iq1_m", 256, 56, true⟩
  | .iq4_nl => ⟨"iq4_nl", 32, 18, true⟩
  | .iq4_xs => ⟨"iq4_xs", 256, 136, true⟩
  | .q8_K => ⟨"q8_K", 256, 292, true⟩
  | .bf16 => ⟨"bf16", 1, 2, false⟩
  | .q4_0_4_4 => ⟨"TYPE_Q4_0_4_4 REMOVED, use Q4_0 with runtime repacking", 0, 0, false⟩
  | .q4_0_4_8 => ⟨"TYPE_Q4_0_4_8 REMOVED, use Q4_0 with runtime repacking", 0, 0, false⟩
  | .q4_0_8_8 => ⟨"TYPE_Q4_0_8_8 REMOVED, use Q4_0 with runtime repacking", 0, 0, false⟩
  | .tq1_0 => ⟨"tq1_0", 256, 54, true⟩
  | .tq2_0 => ⟨"tq2_0", 256, 66, true⟩
  | .iq4_nl_4_4 => ⟨"TYPE_IQ4_NL_4_4 REMOVED, use IQ4_NL with runtime repacking", 0, 0, false⟩
  | .iq4_nl_4_8 => ⟨"TYPE_IQ4_NL_4_8 REMOVED, use IQ4_NL with runtime repacking", 0, 0, false⟩
  | .iq4_nl_8_8 => ⟨"TYPE_IQ4_NL_8_8 REMOVED, use IQ4_NL with runtime repacking", 0, 0, false⟩

def GgmlType.blckSize (t : GgmlType) : Nat := t.traits.blckSize

def GgmlType.isQuantized (t : GgmlType) : Bool := t.traits.isQuantized

/-- `llama_ftype`. -/
inductive LlamaFtype where
  | allF32 | f16 | q4_0 | q4_1 | q8_0 | q5_0 | q5_1
  | q2_K | q3_K_S | q3_K_M | q3_K_L | q4_K_S | q4_K_M | q5_K_S | q5_K_M | q6_K
  | iq2_xxs | iq2_xs | q2_K_S | iq3_xs | iq3_xxs | iq1_s | iq4_nl | iq3_s | iq3_m
  | iq2_s | iq2_m | iq4_xs | iq1_m | bf16 | tq1_0 | tq2_0 | mxfp4Moe | guessed
  deriving DecidableEq

/-- The values of the enumeration; the numbers left out belong to removed types. -/
def LlamaFtype.number : LlamaFtype → Nat
  | .allF32 => 0
  | .f16 => 1
  | .q4_0 => 2
  | .q4_1 => 3
  | .q8_0 => 7
  | .q5_0 => 8
  | .q5_1 => 9
  | .q2_K => 10
  | .q3_K_S => 11
  | .q3_K_M => 12
  | .q3_K_L => 13
  | .q4_K_S => 14
  | .q4_K_M => 15
  | .q5_K_S => 16
  | .q5_K_M => 17
  | .q6_K => 18
  | .iq2_xxs => 19
  | .iq2_xs => 20
  | .q2_K_S => 21
  | .iq3_xs => 22
  | .iq3_xxs => 23
  | .iq1_s => 24
  | .iq4_nl => 25
  | .iq3_s => 26
  | .iq3_m => 27
  | .iq2_s => 28
  | .iq2_m => 29
  | .iq4_xs => 30
  | .iq1_m => 31
  | .bf16 => 32
  | .tq1_0 => 36
  | .tq2_0 => 37
  | .mxfp4Moe => 38
  | .guessed => 1024

/-- The switch at the head of `llama_model_quantize_impl`. -/
def defaultType : LlamaFtype → Option GgmlType
  | .q4_0 => some .q4_0
  | .q4_1 => some .q4_1
  | .q5_0 => some .q5_0
  | .q5_1 => some .q5_1
  | .q8_0 => some .q8_0
  | .f16 => some .f16
  | .bf16 => some .bf16
  | .allF32 => some .f32
  | .mxfp4Moe => some .mxfp4
  | .q2_K_S | .q2_K => some .q2_K
  | .iq3_xs => some .iq3_s
  | .q3_K_S | .q3_K_M | .q3_K_L => some .q3_K
  | .q4_K_S | .q4_K_M => some .q4_K
  | .q5_K_S | .q5_K_M => some .q5_K
  | .q6_K => some .q6_K
  | .tq1_0 => some .tq1_0
  | .tq2_0 => some .tq2_0
  | .iq2_xxs => some .iq2_xxs
  | .iq2_xs => some .iq2_xs
  | .iq2_s => some .iq2_xs
  | .iq2_m => some .iq2_s
  | .iq3_xxs => some .iq3_xxs
  | .iq1_s => some .iq1_s
  | .iq1_m => some .iq1_m
  | .iq4_nl => some .iq4_nl
  | .iq4_xs => some .iq4_xs
  | .iq3_s => some .iq3_s
  | .iq3_m => some .iq3_s
  | .guessed => none

theorem blckSize_dvd_of_isQuantized {t : GgmlType} (h : t.isQuantized = true) :
    t.blckSize ∣ 256 := by
  revert h
  cases t <;> decide

end ActQuant.Quant
