import ActQuant.KQuant.Agreement
import ActQuant.KQuant.Packing

namespace ActQuant.KQuant
open ActQuant.Lib

/-! The five layouts, with what holds of each. -/

inductive KType | q2K | q3K | q4K | q5K | q6K
  deriving DecidableEq

namespace KType

/-- The bytes of a block, as `struct`s. -/
abbrev Block : KType → Type
  | q2K => BlockQ2K
  | q3K => BlockQ3K
  | q4K => BlockQ4K
  | q5K => BlockQ5K
  | q6K => BlockQ6K

/-- `type_size`. -/
def typeSize : KType → Nat
  | q2K => 84
  | q3K => 110
  | q4K => 144
  | q5K => 176
  | q6K => 210

/-- The packing loops of `quantize_row_*_K_ref`. -/
def pack : (t : KType) → Codes → Half → Half → t.Block
  | q2K, c, d, dmin => packQ2K c d dmin
  | q3K, c, d, _ => packQ3K c d
  | q4K, c, d, dmin => packQ4K c d dmin
  | q5K, c, d, dmin => packQ5K c d dmin
  | q6K, c, d, _ => packQ6K c d

/-- `dequantize_row_*_K`. -/
def dequantizeRow : (t : KType) → t.Block → List Weight
  | q2K => dequantizeRowQ2K
  | q3K => dequantizeRowQ3K
  | q4K => dequantizeRowQ4K
  | q5K => dequantizeRowQ5K
  | q6K => dequantizeRowQ6K

def ofBytes : (t : KType) → List Byte → t.Block
  | q2K => BlockQ2K.ofBytes
  | q3K => BlockQ3K.ofBytes
  | q4K => BlockQ4K.ofBytes
  | q5K => BlockQ5K.ofBytes
  | q6K => BlockQ6K.ofBytes

/-- `dequantize_blocks` of gguf-py. -/
def dequantizeBlocks : KType → List Byte → List Weight
  | q2K => Q2K.dequantizeBlocks
  | q3K => Q3K.dequantizeBlocks
  | q4K => Q4K.dequantizeBlocks
  | q5K => Q5K.dequantizeBlocks
  | q6K => Q6K.dequantizeBlocks

/-- The number of codes of an element. -/
def levels : KType → Nat
  | q2K => 4
  | q3K => 8
  | q4K => 16
  | q5K => 32
  | q6K => 64

/-- The number of elements of a sub-block. -/
def subBlock : KType → Nat
  | q4K | q5K => 32
  | q2K | q3K | q6K => 16

/-- The least scale code and the first one that is too large. -/
def scaleRange : KType → Int × Int
  | q2K => (0, 16)
  | q3K | q4K | q5K => (0, 64)
  | q6K => (-128, 128)

/-- The first minimum code that is too large, in a format with minima. -/
def minLevels : KType → Option Nat
  | q2K => some 16
  | q4K | q5K => some 64
  | q3K | q6K => none

/-- What is taken off the code of an element. -/
def zero : KType → Int
  | q3K => 4
  | q6K => 32
  | q2K | q4K | q5K => 0

/-- What is taken off the code of a scale. -/
def scaleZero : KType → Int
  | q3K => 32
  | q2K | q4K | q5K | q6K => 0

/-- The codes that a format can hold. -/
structure Holds (t : KType) (c : Codes) : Prop where
  element : ∀ p < 256, c.q p < t.levels
  scale : ∀ j < 256 / t.subBlock, t.scaleRange.1 ≤ c.scale j ∧ c.scale j < t.scaleRange.2
  min : ∀ n ∈ t.minLevels, ∀ j < 256 / t.subBlock, c.min j < n

/-- The codes of an element and of its own sub-block. -/
def weight (t : KType) (c : Codes) (d dmin : Half) (p : Nat) : Weight where
  d := d
  dmin := if t.minLevels.isSome then dmin else noHalf
  scale := c.scale (p / t.subBlock) - t.scaleZero
  min := if t.minLevels.isSome then c.min (p / t.subBlock) else 0
  q := c.q p - t.zero

theorem roundTrip (t : KType) {c : Codes} (d dmin : Half) (h : t.Holds c) :
    t.dequantizeRow (t.pack c d dmin) = (List.range 256).map (t.weight c d dmin) := by
  obtain ⟨hq, hs, hm⟩ := h
  cases t
  case q2K =>
    refine (q2K_roundTrip d dmin hq hs (hm 16 rfl)).trans ?_
    apply List.map_congr_left
    intro p _
    simp [weight, minLevels, scaleZero, zero, subBlock]
  case q3K =>
    refine (q3K_roundTrip d hq hs).trans ?_
    apply List.map_congr_left
    intro p _
    simp [weight, minLevels, scaleZero, zero, subBlock]
  case q4K =>
    refine (q4K_roundTrip d dmin hq hs (hm 64 rfl)).trans ?_
    apply List.map_congr_left
    intro p _
    simp [weight, minLevels, scaleZero, zero, subBlock]
  case q5K =>
    refine (q5K_roundTrip d dmin hq hs (hm 64 rfl)).trans ?_
    apply List.map_congr_left
    intro p _
    simp [weight, minLevels, scaleZero, zero, subBlock]
  case q6K =>
    refine (q6K_roundTrip d hq hs).trans ?_
    apply List.map_congr_left
    intro p _
    simp [weight, minLevels, scaleZero, zero, subBlock]

theorem readers_agree (t : KType) {block : List Byte} (h : block.length = t.typeSize) :
    t.dequantizeBlocks block = t.dequantizeRow (t.ofBytes block) := by
  cases t
  case q2K => exact q2K_agree h
  case q3K => exact q3K_agree h
  case q4K => exact q4K_agree h
  case q5K => exact q5K_agree h
  case q6K => exact q6K_agree h

/-- Packed codes are read back at their own positions, and the two readers take the same codes
from every block. -/
theorem layout_correct (t : KType) :
    (∀ (c : Codes) (d dmin : Half), t.Holds c →
      t.dequantizeRow (t.pack c d dmin) = (List.range 256).map (t.weight c d dmin)) ∧
    ∀ block : List Byte, block.length = t.typeSize →
      t.dequantizeBlocks block = t.dequantizeRow (t.ofBytes block) :=
  ⟨fun _ d dmin h => t.roundTrip d dmin h, fun _ h => t.readers_agree h⟩

/-- Codes that differ from position to position. -/
def someCodes : Codes where
  q p := p % 32
  scale j := j
  min j := j + 3

theorem layout_correct_q5K :
    (q5K.dequantizeRow (q5K.pack someCodes (1, 2) (3, 4))).getD 130 ⟨(0, 0), (0, 0), 0, 0, 0⟩ =
        ⟨(1, 2), (3, 4), 4, 7, 2⟩ ∧
      q5K.dequantizeBlocks (List.replicate 176 7#8) =
        q5K.dequantizeRow (q5K.ofBytes (List.replicate 176 7#8)) := by
  have hholds : q5K.Holds someCodes := by
    refine ⟨fun p _ => Nat.mod_lt _ (by decide), fun j hj => ?_, fun n hn j hj => ?_⟩
    case refine_1 =>
      have hj' : j < 8 := hj
      change (0 : Int) ≤ (j : Int) ∧ (j : Int) < 64
      omega
    case refine_2 =>
      have hj' : j < 8 := hj
      have hn' : n = 64 := (Option.some.inj hn).symm
      change j + 3 < n
      omega
  refine ⟨?_, (layout_correct q5K).2 _ List.length_replicate⟩
  rw [(layout_correct q5K).1 someCodes (1, 2) (3, 4) hholds]
  decide +kernel

end KType
end ActQuant.KQuant
