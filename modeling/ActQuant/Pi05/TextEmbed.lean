import ActQuant.KQuant.Layouts
import ActQuant.Lib.Outcome
import ActQuant.Quant.GgmlType

namespace ActQuant.Pi05.TextEmbed
open ActQuant.Lib ActQuant.KQuant ActQuant.Quant

section Dequantize

/-- What the bytes of a number stand for, and the square root. -/
structure NumberFormat (R : Type) where
  fp16 : Half → R
  fp32 : List Byte → R
  sqrt : R → R

variable {R : Type} [CommRing R] (num : NumberFormat R)

/-- A block of `dequantize_row_q4_0`. -/
def dequantizeQ4_0 (x : List Byte) : List R :=
  let d := num.fp16 (halfAt x 0)
  let qs (j : Nat) : Byte := byteAt x (2 + j)
  (List.range 16).map (fun j => (((qs j &&& 0xF#8).toNat - 8 : Int) : R) * d) ++
    (List.range 16).map fun j => (((qs j >>> 4).toNat - 8 : Int) : R) * d

/-- A block of `dequantize_row_q8_0`. -/
def dequantizeQ8_0 (x : List Byte) : List R :=
  let d := num.fp16 (halfAt x 0)
  (List.range 32).map fun j => ((byteAt x (2 + j)).toInt : R) * d

/-- A block of `dequantize_row_q4_K`. -/
def dequantizeQ4_K (x : List Byte) : List R :=
  (dequantizeRowQ4K (BlockQ4K.ofBytes x)).map fun w =>
    num.fp16 w.d * (w.scale : R) * (w.q : R) - num.fp16 w.dmin * (w.min : R)

/-- A block of `dequantize_row_q8_K`. -/
def dequantizeQ8_K (x : List Byte) : List R :=
  let d := num.fp32 (x.take 4)
  (List.range 256).map fun j => d * ((byteAt x (4 + j)).toInt : R)

/-- The conversion of a block of the types the lookup has branches for; a block of the two types of
numbers is one number. -/
def convertBlock : GgmlType → Option (List Byte → List R)
  | .f32 => some fun x => [num.fp32 x]
  | .f16 => some fun x => [num.fp16 (halfAt x 0)]
  | .q4_0 => some (dequantizeQ4_0 num)
  | .q8_0 => some (dequantizeQ8_0 num)
  | .q4_K => some (dequantizeQ4_K num)
  | .q8_K => some (dequantizeQ8_K num)
  | _ => none

end Dequantize

section Lookup

/-- What `load_embedding` leaves: a table of the shape and the size it has checked. -/
structure EmbedTable where
  embedType : GgmlType
  vocabSize : Nat
  hiddenSize : Nat
  embedData : List Byte
  whole : embedType.blckSize ∣ hiddenSize
  length_embedData : embedData.length =
    vocabSize * (hiddenSize / embedType.blckSize * embedType.traits.typeSize)

inductive EmbedError where
  | notInitialized
  | outOfRange (tokenId : Int)
  | unsupportedType (type : GgmlType)
  /-- A product of two `int`s that is none. -/
  | overflow
  /-- A read outside of the table. -/
  | outsideTable
  deriving DecidableEq

/-- The product of two `int`s. -/
def intMul (a b : Int) : Except EmbedError Int :=
  if -2 ^ 31 ≤ a * b ∧ a * b < 2 ^ 31 then .ok (a * b) else .error .overflow

variable {R : Type} [CommRing R] (num : NumberFormat R) (table : EmbedTable)

def readBytes (offset n : Nat) : Except EmbedError (List Byte) :=
  if offset + n ≤ table.embedData.length then .ok ((table.embedData.drop offset).take n)
  else .error .outsideTable

/-- The row in the branches of numbers: the offset is a product of `int`s. -/
def numberRow (size : Nat) (convert : List Byte → List R) (tokenId : Int) :
    Except EmbedError (List R) :=
  (intMul tokenId table.hiddenSize).bind fun offset =>
    ((List.range table.hiddenSize).mapM fun j =>
      (readBytes table ((offset.toNat + j) * size) size).map convert).map List.flatten

/-- The row in the branches of blocks: the offset is a `size_t`. -/
def blockRow (qk size : Nat) (convert : List Byte → List R) (tokenId : Int) :
    Except EmbedError (List R) :=
  let nBlocksPerRow := table.hiddenSize / qk
  let rowSize := nBlocksPerRow * size
  (readBytes table (tokenId.toNat * rowSize) rowSize).map fun src =>
    (List.range (table.hiddenSize / qk)).flatMap fun i =>
      convert ((src.drop (i * size)).take size)

/-- The branch of the table's type. -/
def typeRow (tokenId : Int) : Except EmbedError (List R) :=
  match table.embedType with
  | .f32 => numberRow table 4 (fun x => [num.fp32 x]) tokenId
  | .f16 => numberRow table 2 (fun x => [num.fp16 (halfAt x 0)]) tokenId
  | .q4_0 => blockRow table 32 18 (dequantizeQ4_0 num) tokenId
  | .q8_0 => blockRow table 32 34 (dequantizeQ8_0 num) tokenId
  | .q4_K => blockRow table 256 144 (dequantizeQ4_K num) tokenId
  | .q8_K => blockRow table 256 292 (dequantizeQ8_K num) tokenId
  | type => .error (.unsupportedType type)

def scale : R := num.sqrt (table.hiddenSize : R)

/-- A turn of the loop over the tokens, which all branches share. -/
def embedToken (token : Int × Nat) : Except EmbedError (List R) :=
  if token.1 < 0 ∨ (table.vocabSize : Int) ≤ token.1 then .error (.outOfRange token.1)
  else
    (typeRow num table token.1).bind fun row =>
      (intMul token.2 table.hiddenSize).map fun _ => row.map (· * scale num table)

/-- `get_text_embeddings`; the rows are written one after the other. -/
def getTextEmbeddings (table : Option EmbedTable) (tokens : List Int) :
    Except EmbedError (List R) :=
  match table with
  | none => .error .notInitialized
  | some table =>
    if tokens = [] then .ok []
    else
      (intMul tokens.length table.hiddenSize).bind fun _ =>
        match convertBlock num table.embedType with
        | none => .error (.unsupportedType table.embedType)
        | some _ => (tokens.zipIdx.mapM (embedToken num table)).map List.flatten

end Lookup

section Spec
variable {R : Type} [CommRing R] (num : NumberFormat R) (table : EmbedTable)

/-- The dequantised row of the matrix. -/
def EmbedTable.row (convert : List Byte → List R) (id : Nat) : List R :=
  let t := table.embedType.traits
  let blocks := table.hiddenSize / t.blckSize
  (List.range blocks).flatMap fun i =>
    convert ((table.embedData.drop ((id * blocks + i) * t.typeSize)).take t.typeSize)

/-- The id is in the vocabulary. -/
def EmbedTable.Valid (id : Int) : Prop := 0 ≤ id ∧ id < table.vocabSize

instance : DecidablePred table.Valid := fun _ => inferInstanceAs (Decidable (_ ∧ _))

/-- The products of `int`s the lookup computes are `int`s. -/
structure EmbedTable.Fits (tokens : List Int) : Prop where
  output : (tokens.length : Int) * table.hiddenSize < 2 ^ 31
  source : table.embedType = .f32 ∨ table.embedType = .f16 →
    ∀ id ∈ tokens, table.Valid id → id * table.hiddenSize < 2 ^ 31

/-- The rows of the tokens, or the first token that is not valid. -/
def embeddingsOf (convert : List Byte → List R) (tokens : List Int) :
    Except EmbedError (List R) :=
  match tokens.find? fun id => ¬ table.Valid id with
  | some id => .error (.outOfRange id)
  | none => .ok (tokens.flatMap fun id =>
      (table.row convert id.toNat).map (· * scale num table))

variable {num table}

theorem intMul_of_lt {a b : Int} (ha : 0 ≤ a) (hb : 0 ≤ b) (h : a * b < 2 ^ 31) :
    intMul a b = .ok (a * b) := by
  have hnonneg := Int.mul_nonneg ha hb
  exact if_pos ⟨by omega, h⟩

/-- A block of a valid row is inside of the table. -/
theorem block_le {id i blocks size : Nat}
    (hlen : table.embedData.length = table.vocabSize * (blocks * size))
    (hid : id < table.vocabSize) (hi : i < blocks) :
    (id * blocks + i) * size + size ≤ table.embedData.length := by
  have hrow : (id + 1) * blocks ≤ table.vocabSize * blocks := Nat.mul_le_mul_right _ hid
  rw [Nat.add_one_mul] at hrow
  calc (id * blocks + i) * size + size = (id * blocks + i + 1) * size := (Nat.add_one_mul _ _).symm
    _ ≤ table.vocabSize * blocks * size := Nat.mul_le_mul_right _ (by omega)
    _ = table.embedData.length := by rw [hlen, Nat.mul_assoc]

omit [CommRing R] in
theorem numberRow_eq {size : Nat} {convert : List Byte → List R} {tokenId : Int}
    (hblck : table.embedType.blckSize = 1) (hsize : table.embedType.traits.typeSize = size)
    (hvalid : table.Valid tokenId) (hfits : tokenId * table.hiddenSize < 2 ^ 31) :
    numberRow table size convert tokenId = .ok (table.row convert tokenId.toNat) := by
  obtain ⟨hnonneg, hlt⟩ := hvalid
  obtain ⟨id, rfl⟩ := Int.eq_ofNat_of_zero_le hnonneg
  have hlen := table.length_embedData
  rw [hblck, hsize, Nat.div_one] at hlen
  have hread : ∀ j ∈ List.range table.hiddenSize,
      (readBytes table (((id * table.hiddenSize : Int).toNat + j) * size) size).map convert =
        .ok (convert ((table.embedData.drop ((id * table.hiddenSize + j) * size)).take size)) := by
    intro j hj
    have hle := block_le hlen (Int.ofNat_lt.1 hlt) (List.mem_range.1 hj)
    rw [← Int.natCast_mul, Int.toNat_natCast, readBytes, if_pos hle]
    rfl
  rw [numberRow, intMul_of_lt hnonneg (Int.natCast_nonneg _) hfits, Except.bind,
    mapM_eq_ok_map hread]
  have hblck' : table.embedType.traits.blckSize = 1 := hblck
  rw [EmbedTable.row, hblck', hsize, Nat.div_one]
  exact congrArg Except.ok (List.flatMap_def).symm

omit [CommRing R] in
theorem blockRow_eq {qk size : Nat} {convert : List Byte → List R} {tokenId : Int}
    (hblck : table.embedType.blckSize = qk) (hsize : table.embedType.traits.typeSize = size)
    (hvalid : table.Valid tokenId) :
    blockRow table qk size convert tokenId = .ok (table.row convert tokenId.toNat) := by
  obtain ⟨hnonneg, hlt⟩ := hvalid
  obtain ⟨id, rfl⟩ := Int.eq_ofNat_of_zero_le hnonneg
  have hlen := table.length_embedData
  rw [hblck, hsize] at hlen
  have hle : id * (table.hiddenSize / qk * size) + table.hiddenSize / qk * size ≤
      table.embedData.length := by
    rw [← Nat.add_one_mul, hlen]
    exact Nat.mul_le_mul_right _ (Int.ofNat_lt.1 hlt)
  have hblck' : table.embedType.traits.blckSize = qk := hblck
  rw [blockRow, EmbedTable.row, readBytes, Int.toNat_natCast, if_pos hle, hblck', hsize]
  refine congrArg Except.ok (List.flatMap_congr fun i hi => ?_)
  have hblock : (i + 1) * size ≤ table.hiddenSize / qk * size :=
    Nat.mul_le_mul_right _ (List.mem_range.1 hi)
  rw [Nat.add_one_mul] at hblock
  rw [List.drop_take, List.take_take, List.drop_drop, Nat.min_eq_left (by omega), Nat.add_mul,
    Nat.mul_assoc]

theorem typeRow_eq {convert : List Byte → List R} {tokenId : Int}
    (hconvert : convertBlock num table.embedType = some convert) (hvalid : table.Valid tokenId)
    (hfits : table.embedType = .f32 ∨ table.embedType = .f16 →
      tokenId * table.hiddenSize < 2 ^ 31) :
    typeRow num table tokenId = .ok (table.row convert tokenId.toNat) := by
  rw [typeRow]
  split
  all_goals rename_i htype
  · rw [htype] at hconvert
    cases hconvert
    exact numberRow_eq (by rw [htype]; rfl) (by rw [htype]; rfl) hvalid (hfits (.inl htype))
  · rw [htype] at hconvert
    cases hconvert
    exact numberRow_eq (by rw [htype]; rfl) (by rw [htype]; rfl) hvalid (hfits (.inr htype))
  · rw [htype] at hconvert
    cases hconvert
    exact blockRow_eq (by rw [htype]; rfl) (by rw [htype]; rfl) hvalid
  · rw [htype] at hconvert
    cases hconvert
    exact blockRow_eq (by rw [htype]; rfl) (by rw [htype]; rfl) hvalid
  · rw [htype] at hconvert
    cases hconvert
    exact blockRow_eq (by rw [htype]; rfl) (by rw [htype]; rfl) hvalid
  · rw [htype] at hconvert
    cases hconvert
    exact blockRow_eq (by rw [htype]; rfl) (by rw [htype]; rfl) hvalid
  · have hnone : convertBlock num table.embedType = none := by rw [convertBlock] <;> assumption
    rw [hnone] at hconvert
    cases hconvert

theorem embedToken_of_valid {convert : List Byte → List R} {tokenId : Int} {i : Nat}
    (hconvert : convertBlock num table.embedType = some convert) (hvalid : table.Valid tokenId)
    (hfits : table.embedType = .f32 ∨ table.embedType = .f16 →
      tokenId * table.hiddenSize < 2 ^ 31)
    (hplace : (i : Int) * table.hiddenSize < 2 ^ 31) :
    embedToken num table (tokenId, i) =
      .ok ((table.row convert tokenId.toNat).map (· * scale num table)) := by
  have hin : ¬ (tokenId < 0 ∨ (table.vocabSize : Int) ≤ tokenId) := by
    rw [not_or, not_lt, not_le]
    exact hvalid
  rw [embedToken, if_neg hin, typeRow_eq hconvert hvalid hfits, Except.bind,
    intMul_of_lt (Int.natCast_nonneg i) (Int.natCast_nonneg _) hplace]
  rfl

theorem embedToken_of_not_valid {tokenId : Int} (h : ¬ table.Valid tokenId) (i : Nat) :
    embedToken num table (tokenId, i) = .error (.outOfRange tokenId) := by
  have hout : tokenId < 0 ∨ (table.vocabSize : Int) ≤ tokenId := by
    rw [EmbedTable.Valid] at h
    omega
  exact if_pos hout

theorem embeddingsOf_cons_of_valid {convert : List Byte → List R} {id : Int}
    (h : table.Valid id) (tokens : List Int) :
    embeddingsOf num table convert (id :: tokens) = (embeddingsOf num table convert tokens).map
      ((table.row convert id.toNat).map (· * scale num table) ++ ·) := by
  rw [embeddingsOf, embeddingsOf, List.find?_cons_of_neg (by rwa [decide_eq_true_eq, not_not])]
  cases tokens.find? fun id => ¬ table.Valid id <;> rfl

theorem embeddingsOf_cons_of_not_valid {convert : List Byte → List R} {id : Int}
    (h : ¬ table.Valid id) (tokens : List Int) :
    embeddingsOf num table convert (id :: tokens) = .error (.outOfRange id) := by
  simp only [embeddingsOf, List.find?_cons, decide_eq_true h]

/-- The rows of the tokens from a place on. -/
theorem rows_eq {convert : List Byte → List R} (hconvert : convertBlock num table.embedType =
      some convert) (tokens : List Int) (start : Nat)
    (hsource : table.embedType = .f32 ∨ table.embedType = .f16 →
      ∀ id ∈ tokens, table.Valid id → id * table.hiddenSize < 2 ^ 31)
    (houtput : ((start + tokens.length : Nat) : Int) * table.hiddenSize < 2 ^ 31) :
    ((tokens.zipIdx start).mapM (embedToken num table)).map List.flatten =
      embeddingsOf num table convert tokens := by
  induction tokens generalizing start with
  | nil => rfl
  | cons id tokens ih =>
    rw [List.zipIdx_cons, List.mapM_cons]
    by_cases hvalid : table.Valid id
    · have hle : (start : Int) * table.hiddenSize ≤
          ((start + (tokens.length + 1) : Nat) : Int) * table.hiddenSize :=
        Int.mul_le_mul_of_nonneg_right (by omega) (Int.natCast_nonneg _)
      have hplace : (start : Int) * table.hiddenSize < 2 ^ 31 := Int.lt_of_le_of_lt hle houtput
      have hrest := ih (start + 1) (fun ht id hid => hsource ht id (.tail _ hid))
        (by rw [Nat.add_assoc, Nat.add_comm 1]; exact houtput)
      rw [embedToken_of_valid hconvert hvalid (fun ht => hsource ht id (.head _) hvalid) hplace,
        embeddingsOf_cons_of_valid hvalid, ← hrest]
      cases (tokens.zipIdx (start + 1)).mapM (embedToken num table) <;> rfl
    · rw [embedToken_of_not_valid hvalid, embeddingsOf_cons_of_not_valid hvalid]
      rfl

/-- The lookup gives the rows of the tokens, dequantised and scaled, and stops at the first token
that is not in the vocabulary. -/
theorem getTextEmbeddings_eq (num : NumberFormat R) (hfits : table.Fits tokens) :
    getTextEmbeddings num (some table) tokens =
      if tokens = [] then .ok []
      else
        match convertBlock num table.embedType with
        | none => .error (.unsupportedType table.embedType)
        | some convert => embeddingsOf num table convert tokens := by
  rw [getTextEmbeddings]
  split
  case isTrue => rfl
  case isFalse =>
    rw [intMul_of_lt (Int.natCast_nonneg _) (Int.natCast_nonneg _) hfits.output, Except.bind]
    cases hconvert : convertBlock num table.embedType with
    | none => rfl
    | some convert =>
      exact rows_eq hconvert tokens 0 hfits.source (by rw [Nat.zero_add]; exact hfits.output)

end Spec

section Tables

/-- Whole numbers in place of the two formats; the square root of four alone. -/
def wholeNumbers : NumberFormat Int where
  fp16 := fun x => x.1.toNat
  fp32 := fun x => (byteAt x 0).toNat
  sqrt := fun _ => 2

/-- Two rows of four numbers. -/
def smallTable : EmbedTable where
  embedType := .f32
  vocabSize := 2
  hiddenSize := 4
  embedData := List.replicate 16 0 ++ (List.replicate 4 [5#8, 0#8, 0#8, 0#8]).flatten
  whole := by decide
  length_embedData := by decide

/-- A table of 2²⁰ + 1 rows of 4096 numbers. -/
def largeTable : EmbedTable where
  embedType := .f32
  vocabSize := 1048577
  hiddenSize := 4096
  embedData := List.replicate (1048577 * (4096 / 1 * 4)) 0
  whole := ⟨4096, rfl⟩
  length_embedData := List.length_replicate

theorem smallTable_fits (h : (tokens.length : Int) ≤ 100) : smallTable.Fits tokens where
  output := by
    have hhidden : (smallTable.hiddenSize : Int) = 4 := rfl
    rw [hhidden]
    omega
  source := by
    intro _ id _ hvalid
    have hvocab : (smallTable.vocabSize : Int) = 2 := rfl
    have hhidden : (smallTable.hiddenSize : Int) = 4 := rfl
    obtain ⟨-, hlt⟩ := hvalid
    rw [hhidden]
    omega

theorem getTextEmbeddings_eq_smallTable :
    getTextEmbeddings wholeNumbers (some smallTable) [1, 7] = .error (.outOfRange 7) := by
  rw [getTextEmbeddings_eq wholeNumbers (smallTable_fits (by decide))]
  rfl

/-- The offset of the last row is no `int`. -/
theorem embedToken_largeTable :
    embedToken wholeNumbers largeTable (1048576, 0) = .error .overflow := by
  have hmul : intMul 1048576 largeTable.hiddenSize = .error .overflow := if_neg (by decide)
  have hrow : typeRow wholeNumbers largeTable 1048576 = .error .overflow := by
    change numberRow largeTable 4 _ 1048576 = _
    rw [numberRow, hmul]
    rfl
  have hin : ¬ ((1048576 : Int) < 0 ∨ (largeTable.vocabSize : Int) ≤ 1048576) := by decide
  rw [embedToken, if_neg hin, hrow]
  rfl

/-- The rows come scaled, as they are meant to; that the last row of a large table does not come is
a defect of the branches whose offset is an `int`. -/
theorem getTextEmbeddings_scaled :
    getTextEmbeddings wholeNumbers (some smallTable) [1] = .ok [10, 10, 10, 10] ∧
      smallTable.row (fun x => [wholeNumbers.fp32 x]) 1 = [5, 5, 5, 5] ∧
      getTextEmbeddings wholeNumbers (some largeTable) [1048576] = .error .overflow := by
  refine ⟨by decide +kernel, by decide +kernel, ?_⟩
  have hmul : intMul ([(1048576 : Int)].length : Nat) largeTable.hiddenSize = .ok 4096 :=
    if_pos (by decide)
  rw [getTextEmbeddings, if_neg (List.cons_ne_nil _ _), hmul, Except.bind]
  change Except.map _ (List.mapM _ [(1048576, 0)]) = _
  rw [List.mapM_cons, embedToken_largeTable]
  rfl

end Tables

end ActQuant.Pi05.TextEmbed
