import ActQuant.Lib.Grid

namespace ActQuant.KQuant
open ActQuant.Lib

/-! Blocks of 256 quantized weights, as they are packed and read. -/

/-- The bytes of a number of half width. -/
abbrev Half := Byte × Byte

/-- What a weight is computed from: `d * scale * q - dmin * min`. -/
structure Weight where
  d : Half
  dmin : Half
  scale : Int
  min : Int
  q : Int
  deriving DecidableEq

/-- The codes of the elements, and the scale and minimum codes of the sub-blocks. -/
structure Codes where
  q : Nat → Nat
  scale : Nat → Int
  min : Nat → Nat

def Codes.scaleByte (c : Codes) (j : Nat) : Byte := BitVec.ofInt 8 (c.scale j)

def Codes.minByte (c : Codes) (j : Nat) : Byte := BitVec.ofNat 8 (c.min j)

def noHalf : Half := (0, 0)

/-! ### Two bits -/

/-- `block_q2_K`. -/
structure BlockQ2K where
  scales : Nat → Byte
  qs : Nat → Byte
  d : Half
  dmin : Half

/-- Four codes of two bits, 32 elements apart, in a byte. -/
def packTwoBits (q : Nat → Nat) : Nat → Byte :=
  byteAt ((List.range 2).flatMap fun j => (List.range 32).map fun l =>
    BitVec.ofNat 8 (q (128 * j + l)) ||| BitVec.ofNat 8 (q (128 * j + l + 32)) <<< 2 |||
      BitVec.ofNat 8 (q (128 * j + l + 64)) <<< 4 ||| BitVec.ofNat 8 (q (128 * j + l + 96)) <<< 6)

/-- The packing of `quantize_row_q2_K_ref`. -/
def packQ2K (c : Codes) (d dmin : Half) : BlockQ2K where
  scales j := c.scaleByte j ||| c.minByte j <<< 4
  qs := packTwoBits c.q
  d := d
  dmin := dmin

/-- `dequantize_row_q2_K`. -/
def dequantizeRowQ2K (x : BlockQ2K) : List Weight :=
  (List.range 2).flatMap fun n => (List.range 4).flatMap fun j =>
    let half := fun (is off : Nat) => (List.range 16).map fun l =>
      (⟨x.d, x.dmin, (x.scales is &&& 0xF#8).toNat, (x.scales is >>> 4).toNat,
        (x.qs (32 * n + (l + off)) >>> (2 * j) &&& 3#8).toInt⟩ : Weight)
    half (8 * n + 2 * j) 0 ++ half (8 * n + 2 * j + 1) 16

/-! ### Three bits -/

/-- `block_q3_K`. -/
structure BlockQ3K where
  hmask : Nat → Byte
  qs : Nat → Byte
  scales : Nat → Byte
  d : Half

/-- One scale of six bits: the low four go to the first eight bytes, the others to the last four. -/
def packScaleQ3K (c : Codes) (scales : Nat → Byte) (j : Nat) : Nat → Byte :=
  let l := c.scaleByte j
  let scales :=
    if j < 8 then Function.update scales j (l &&& 0xF#8)
    else Function.update scales (j - 8) (scales (j - 8) ||| (l &&& 0xF#8) <<< 4)
  let k := j % 4 + 8
  Function.update scales k (scales k ||| (l >>> 4) <<< (2 * (j / 4)))

/-- The high bits so far, with the byte and the bit that are next. -/
structure HighBits where
  hmask : Nat → Byte
  m : Nat
  hm : Byte

def highBitStep (q : Nat → Nat) (s : HighBits) (j : Nat) : HighBits :=
  let hmask := if 3 < q j then Function.update s.hmask s.m (s.hmask s.m ||| s.hm) else s.hmask
  if s.m + 1 = 32 then ⟨hmask, 0, s.hm <<< 1⟩ else ⟨hmask, s.m + 1, s.hm⟩

def packHighBits (q : Nat → Nat) : Nat → Byte :=
  ((List.range 256).foldl (highBitStep q) ⟨fun _ => 0, 0, 1⟩).hmask

def packScalesQ3K (c : Codes) : Nat → Byte := (List.range 16).foldl (packScaleQ3K c) fun _ => 0

/-- A code of three bits without the high one. -/
def lowOfThree (q : Nat) : Nat := if 3 < q then q - 4 else q

/-- The packing of `quantize_row_q3_K_ref`. -/
def packQ3K (c : Codes) (d : Half) : BlockQ3K where
  hmask := packHighBits c.q
  qs := packTwoBits fun j => lowOfThree (c.q j)
  scales := packScalesQ3K c
  d := d

/-- The scales of a block, as bytes of four words. -/
def scalesQ3K (scales : Nat → Byte) (is : Nat) : Byte :=
  let kmask1 := 0x03030303#32
  let kmask2 := 0x0f0f0f0f#32
  let aux := fun i => word fun k => scales (4 * i + k)
  let tmp := aux 2
  let low := fun i s => (aux i >>> s) &&& kmask2
  let high := fun s => ((tmp >>> s) &&& kmask1) <<< 4
  let words := [low 0 0 ||| high 0, low 1 0 ||| high 2, low 0 4 ||| high 4, low 1 4 ||| high 6]
  byteOf (words.getD (is / 4) 0) (is % 4)

/-- `dequantize_row_q3_K`. -/
def dequantizeRowQ3K (x : BlockQ3K) : List Weight :=
  (List.range 2).flatMap fun n => (List.range 4).flatMap fun j =>
    let m := 1#8 <<< (4 * n + j)
    let half := fun (is off : Nat) => (List.range 16).map fun l =>
      (⟨x.d, noHalf, (scalesQ3K x.scales is).toInt - 32, 0,
        (x.qs (32 * n + (l + off)) >>> (2 * j) &&& 3#8).toInt -
          (if x.hmask (l + off) &&& m ≠ 0 then 0 else 4)⟩ : Weight)
    half (8 * n + 2 * j) 0 ++ half (8 * n + 2 * j + 1) 16

/-! ### Four and five bits -/

/-- `block_q4_K`. -/
structure BlockQ4K where
  d : Half
  dmin : Half
  scales : Nat → Byte
  qs : Nat → Byte

/-- One scale and one minimum of six bits, the high bits of the last four in the first eight
bytes. -/
def packScaleMinK4 (c : Codes) (scales : Nat → Byte) (j : Nat) : Nat → Byte :=
  let ls := c.scaleByte j
  let lm := c.minByte j
  if j < 4 then Function.update (Function.update scales j ls) (j + 4) lm
  else
    let scales := Function.update scales (j + 4) (ls &&& 0xF#8 ||| (lm &&& 0xF#8) <<< 4)
    let scales := Function.update scales (j - 4) (scales (j - 4) ||| (ls >>> 4) <<< 6)
    Function.update scales j (scales j ||| (lm >>> 4) <<< 6)

def packScalesK4 (c : Codes) : Nat → Byte := (List.range 8).foldl (packScaleMinK4 c) fun _ => 0

/-- Two codes of four bits, 32 elements apart, in a byte. -/
def packFourBits (q : Nat → Nat) : Nat → Byte :=
  byteAt ((List.range 4).flatMap fun j => (List.range 32).map fun l =>
    BitVec.ofNat 8 (q (64 * j + l)) ||| BitVec.ofNat 8 (q (64 * j + l + 32)) <<< 4)

/-- The packing of `quantize_row_q4_K_ref`. -/
def packQ4K (c : Codes) (d dmin : Half) : BlockQ4K where
  d := d
  dmin := dmin
  scales := packScalesK4 c
  qs := packFourBits c.q

/-- `get_scale_min_k4`. -/
def getScaleMinK4 (j : Nat) (q : Nat → Byte) : Byte × Byte :=
  if j < 4 then (q j &&& 63#8, q (j + 4) &&& 63#8)
  else
    (q (j + 4) &&& 0xF#8 ||| (q (j - 4) >>> 6) <<< 4, q (j + 4) >>> 4 ||| (q j >>> 6) <<< 4)

/-- `dequantize_row_q4_K`. -/
def dequantizeRowQ4K (x : BlockQ4K) : List Weight :=
  (List.range 4).flatMap fun j =>
    let half := fun (is : Nat) (q : Byte → Byte) => (List.range 32).map fun l =>
      let scaleMin := getScaleMinK4 is x.scales
      (⟨x.d, x.dmin, scaleMin.1.toNat, scaleMin.2.toNat, (q (x.qs (32 * j + l))).toNat⟩ : Weight)
    half (2 * j) (· &&& 0xF#8) ++ half (2 * j + 1) (· >>> 4)

/-- `block_q5_K`. -/
structure BlockQ5K where
  d : Half
  dmin : Half
  scales : Nat → Byte
  qh : Nat → Byte
  qs : Nat → Byte

/-- The high bits of 64 elements, two in each of the 32 bytes. -/
def packFifthBits (q : Nat → Nat) (qh : Nat → Byte) (n : Nat) : Nat → Byte := fun j =>
  let h := if 15 < q (64 * n + j) then qh j ||| 1#8 <<< (2 * n) else qh j
  if 15 < q (64 * n + j + 32) then h ||| 2#8 <<< (2 * n) else h

def packHighOfFive (q : Nat → Nat) : Nat → Byte :=
  (List.range 4).foldl (packFifthBits q) fun _ => 0

/-- A code of five bits without the high one. -/
def lowOfFive (q : Nat) : Nat := if 15 < q then q - 16 else q

/-- The packing of `quantize_row_q5_K_ref`. -/
def packQ5K (c : Codes) (d dmin : Half) : BlockQ5K where
  d := d
  dmin := dmin
  scales := packScalesK4 c
  qh := packHighOfFive c.q
  qs := packFourBits fun j => lowOfFive (c.q j)

/-- `dequantize_row_q5_K`. -/
def dequantizeRowQ5K (x : BlockQ5K) : List Weight :=
  (List.range 4).flatMap fun j =>
    let half := fun (is : Nat) (q : Byte → Byte) (u : Byte) => (List.range 32).map fun l =>
      let scaleMin := getScaleMinK4 is x.scales
      (⟨x.d, x.dmin, scaleMin.1.toNat, scaleMin.2.toNat,
        ((q (x.qs (32 * j + l))).toNat + (if x.qh l &&& u ≠ 0 then 16 else 0) : Nat)⟩ : Weight)
    half (2 * j) (· &&& 0xF#8) (1#8 <<< (2 * j)) ++ half (2 * j + 1) (· >>> 4) (2#8 <<< (2 * j))

/-! ### Six bits -/

/-- `block_q6_K`. -/
structure BlockQ6K where
  ql : Nat → Byte
  qh : Nat → Byte
  scales : Nat → Byte
  d : Half

/-- The low four bits of codes 64 elements apart. -/
def packLowOfSix (q : Nat → Nat) : Nat → Byte :=
  byteAt ((List.range 2).flatMap fun j =>
    let low := fun l => BitVec.ofNat 8 (q (128 * j + l)) &&& 0xF#8
    ((List.range 32).map fun l => low l ||| low (l + 64) <<< 4) ++
      (List.range 32).map fun l => low (l + 32) ||| low (l + 96) <<< 4)

/-- The packing of `quantize_row_q6_K_ref`. -/
def packQ6K (c : Codes) (d : Half) : BlockQ6K where
  ql := packLowOfSix c.q
  qh := packTwoBits fun j => c.q j >>> 4
  scales := c.scaleByte
  d := d

/-- The `k`-th of the four elements that share the high bits of a byte. -/
def elementQ6K (ql qh : Nat → Byte) (l : Nat) : Nat → Byte
  | 0 => ql l &&& 0xF#8 ||| (qh l &&& 3#8) <<< 4
  | 1 => ql (l + 32) &&& 0xF#8 ||| (qh l >>> 2 &&& 3#8) <<< 4
  | 2 => ql l >>> 4 ||| (qh l >>> 4 &&& 3#8) <<< 4
  | _ => ql (l + 32) >>> 4 ||| (qh l >>> 6 &&& 3#8) <<< 4

/-- `dequantize_row_q6_K`, whose loop writes the elements `l`, `l + 32`, `l + 64` and `l + 96`. -/
def dequantizeRowQ6K (x : BlockQ6K) : List Weight :=
  (List.range 2).flatMap fun n => (List.range 4).flatMap fun k => (List.range 32).map fun l =>
    let q := elementQ6K (fun i => x.ql (64 * n + i)) (fun i => x.qh (32 * n + i)) l k
    (⟨x.d, noHalf, (x.scales (8 * n + (l / 16 + 2 * k))).toInt, 0, q.toInt - 32⟩ : Weight)

/-! `dequantize_blocks` of gguf-py, on one block. Arrays are flat, in row-major order, so that
reshaping leaves them as they are. -/

/-- `np.hsplit(bytes, [n])`. -/
def hsplit (bytes : List Byte) (n : Nat) : List Byte × List Byte := (bytes.take n, bytes.drop n)

/-- The two bytes of an array that is viewed as one number of half width. -/
def viewHalf (bytes : List Byte) : Half := (byteAt bytes 0, byteAt bytes 1)

/-- The elements with the scales and the minima broadcast over sub-blocks of a length. -/
def broadcast (sub : Nat) (d dmin : Half) (scales mins : List Int) (qs : List Int) : List Weight :=
  (List.range 256).map fun p =>
    ⟨d, dmin, scales.getD (p / sub) 0, mins.getD (p / sub) 0, qs.getD p 0⟩

def toInts (bytes : List Byte) : List Int := bytes.map fun b => (b.toNat : Int)

def toInt8s (bytes : List Byte) : List Int := bytes.map BitVec.toInt

namespace Q2K

def dequantizeBlocks (block : List Byte) : List Weight :=
  let (scales, rest) := hsplit block 16
  let (qs, rest) := hsplit rest 64
  let (d, dmin) := hsplit rest 2
  let dl := toInts (scales.map fun s : Byte => s &&& 0xF#8)
  let ml := toInts (scales.map fun s : Byte => s >>> 4)
  let qs := (planes 32 [0, 2, 4, 6] qs).map fun x : Byte => x &&& 3#8
  broadcast 16 (viewHalf d) (viewHalf dmin) dl ml (toInts qs)

end Q2K

namespace Q3K

def dequantizeBlocks (block : List Byte) : List Weight :=
  let (hmask, rest) := hsplit block 32
  let (qs, rest) := hsplit rest 64
  let (scales, d) := hsplit rest 12
  let (lscales, hscales) := hsplit scales 8
  let lscales := planes 8 [0, 4] lscales
  let hscales := planes 4 [0, 2, 4, 6] hscales
  let scales :=
    List.zipWith (fun l h : Byte => (l &&& 0x0F#8) ||| (h &&& 0x03#8) <<< 4) lscales hscales
  let scales := (toInt8s scales).map (· - 32)
  let ql := (planes 32 [0, 2, 4, 6] qs).map fun x : Byte => x &&& 3#8
  let qh := (planes 32 [0, 1, 2, 3, 4, 5, 6, 7] hmask).map fun h : Byte => (h &&& 1#8) ^^^ 1#8
  let q := List.zipWith (fun l h => l - h) (toInt8s ql) (toInt8s (qh.map fun h : Byte => h <<< 2))
  broadcast 16 (viewHalf d) noHalf scales [] q

end Q3K

namespace Q4K

def getScaleMin (scales : List Byte) : List Byte × List Byte :=
  let (d, rest) := hsplit scales 4
  let (m, mD) := hsplit rest 4
  let scHigh := List.zipWith (fun x y : Byte => x &&& 0x0F#8 ||| (y >>> 2 &&& 0x30#8)) mD d
  let minHigh := List.zipWith (fun x y : Byte => x >>> 4 ||| (y >>> 2 &&& 0x30#8)) mD m
  ((d.map fun x : Byte => x &&& 0x3F#8) ++ scHigh, (m.map fun x : Byte => x &&& 0x3F#8) ++ minHigh)

def dequantizeBlocks (block : List Byte) : List Weight :=
  let (d, rest) := hsplit block 2
  let (dmin, rest) := hsplit rest 2
  let (scales, qs) := hsplit rest 12
  let scaleMin := getScaleMin scales
  let qs := (planes 32 [0, 4] qs).map fun x : Byte => x &&& 0x0F#8
  broadcast 32 (viewHalf d) (viewHalf dmin) (toInts scaleMin.1) (toInts scaleMin.2) (toInts qs)

end Q4K

namespace Q5K

def dequantizeBlocks (block : List Byte) : List Weight :=
  let (d, rest) := hsplit block 2
  let (dmin, rest) := hsplit rest 2
  let (scales, rest) := hsplit rest 12
  let (qh, qs) := hsplit rest 32
  let scaleMin := Q4K.getScaleMin scales
  let ql := (planes 32 [0, 4] qs).map fun x : Byte => x &&& 0x0F#8
  let qh := (planes 32 [0, 1, 2, 3, 4, 5, 6, 7] qh).map fun x : Byte => x &&& 0x01#8
  let q := List.zipWith (fun l h : Byte => l ||| h <<< 4) ql qh
  broadcast 32 (viewHalf d) (viewHalf dmin) (toInts scaleMin.1) (toInts scaleMin.2) (toInts q)

end Q5K

namespace Q6K

def dequantizeBlocks (block : List Byte) : List Weight :=
  let (ql, rest) := hsplit block 128
  let (qh, rest) := hsplit rest 64
  let (scales, d) := hsplit rest 16
  let ql := (planes 64 [0, 4] ql).map fun x : Byte => x &&& 0x0F#8
  let qh := (planes 32 [0, 2, 4, 6] qh).map fun x : Byte => x &&& 0x03#8
  let q := (toInt8s (List.zipWith (fun l h : Byte => l ||| h <<< 4) ql qh)).map (· - 32)
  broadcast 16 (viewHalf d) noHalf (toInt8s scales) [] q

end Q6K

/-! What the readers make of each of the 256 positions of a block. -/

/-- Two halves of 16 elements in each of four steps, twice. -/
theorem flatMap_sixteens (g : Nat → Nat → Nat → Nat → α) :
    ((List.range 2).flatMap fun n => (List.range 4).flatMap fun j =>
        (List.range 16).map (g n j 0) ++ (List.range 16).map (g n j 1)) =
      (List.range 256).map fun p => g (p / 128) (p % 128 / 32) (p % 32 / 16) (p % 16) := by
  have hhalves (n j : Nat) : (List.range 16).map (g n j 0) ++ (List.range 16).map (g n j 1) =
      (List.range 32).map fun p => g n j (p / 16) (p % 16) :=
    flatMap_range_map (g n j) 2 16
  simp only [hhalves]
  have hsteps (n : Nat) : ((List.range 4).flatMap fun j => (List.range 32).map fun p =>
      g n j (p / 16) (p % 16)) =
      (List.range 128).map fun p => g n (p / 32) (p % 32 / 16) (p % 32 % 16) :=
    flatMap_range_map (fun j p => g n j (p / 16) (p % 16)) 4 32
  simp only [hsteps]
  rw [flatMap_range_map (fun n p => g n (p / 32) (p % 32 / 16) (p % 32 % 16)) 2 128]
  apply List.map_congr_left
  intro p _
  rw [Nat.mod_mod_of_dvd p (by decide : 32 ∣ 128), Nat.mod_mod_of_dvd p (by decide : 16 ∣ 32)]

/-- Two halves of 32 elements in each of four steps. -/
theorem flatMap_thirtyTwos (g : Nat → Nat → Nat → α) :
    ((List.range 4).flatMap fun j => (List.range 32).map (g j 0) ++ (List.range 32).map (g j 1)) =
      (List.range 256).map fun p => g (p / 64) (p % 64 / 32) (p % 32) := by
  have hhalves (j : Nat) : (List.range 32).map (g j 0) ++ (List.range 32).map (g j 1) =
      (List.range 64).map fun p => g j (p / 32) (p % 32) :=
    flatMap_range_map (g j) 2 32
  simp only [hhalves]
  rw [flatMap_range_map (fun j p => g j (p / 32) (p % 32)) 4 64]
  apply List.map_congr_left
  intro p _
  rw [Nat.mod_mod_of_dvd p (by decide : 32 ∣ 64)]

/-- Two halves of 32 bytes, twice. -/
theorem flatMap_halves (f : Nat → Nat → α) :
    ((List.range 2).flatMap fun j =>
        (List.range 32).map (f j) ++ (List.range 32).map fun l => f j (l + 32)) =
      (List.range 128).map fun p => f (p / 64) (p % 64) := by
  have hhalves (j : Nat) : ((List.range 32).map (f j) ++ (List.range 32).map fun l => f j (l + 32)) =
      (List.range 64).map fun p => f j (p % 32 + 32 * (p / 32)) :=
    flatMap_range_map (fun h l => f j (l + 32 * h)) 2 32
  simp only [hhalves, Nat.mod_add_div]
  exact flatMap_range_map f 2 64

theorem sixteenth (p : Nat) : 8 * (p / 128) + 2 * (p % 128 / 32) + p % 32 / 16 = p / 16 := by
  omega

theorem column (p : Nat) : p % 16 + 16 * (p % 32 / 16) = p % 32 := by omega

theorem thirtySecond (p : Nat) : 2 * (p / 64) + p % 64 / 32 = p / 32 := by omega

/-- The low bits of an element of a format with two of them. -/
def twoBits (qs : Nat → Byte) (p : Nat) : Byte :=
  qs (32 * (p / 128) + p % 32) >>> (2 * (p % 128 / 32)) &&& 3#8

theorem dequantizeRowQ2K_eq (x : BlockQ2K) :
    dequantizeRowQ2K x = (List.range 256).map fun p =>
      ⟨x.d, x.dmin, (x.scales (p / 16) &&& 0xF#8).toNat, (x.scales (p / 16) >>> 4).toNat,
        (twoBits x.qs p).toInt⟩ := by
  refine (flatMap_sixteens fun n j h l => (⟨x.d, x.dmin, (x.scales (8 * n + 2 * j + h) &&& 0xF#8).toNat,
    (x.scales (8 * n + 2 * j + h) >>> 4).toNat,
    (x.qs (32 * n + (l + 16 * h)) >>> (2 * j) &&& 3#8).toInt⟩ : Weight)).trans ?_
  apply List.map_congr_left
  intro p _
  rw [sixteenth, column, twoBits]

theorem byteOf_low (b : Nat → Byte) (hs : s = 0 ∨ s = 4) (hk : k < 4) :
    byteOf (word b >>> s &&& 0x0f0f0f0f#32) k = b k >>> s &&& 0xF#8 := by
  apply BitVec.eq_of_getElem_eq
  intro i hi
  rw [byteOf, word]
  rcases hs with rfl | rfl <;> interval_cases k <;>
    simp only [BitVec.getElem_setWidth, BitVec.getLsbD_ushiftRight, BitVec.getLsbD_append,
      BitVec.getLsbD_and, BitVec.getElem_and, BitVec.getElem_ushiftRight] <;>
    interval_cases i <;> simp

theorem byteOf_high (b : Nat → Byte) (hs : s = 0 ∨ s = 2 ∨ s = 4 ∨ s = 6) (hk : k < 4) :
    byteOf ((word b >>> s &&& 0x03030303#32) <<< 4) k = (b k >>> s &&& 3#8) <<< 4 := by
  apply BitVec.eq_of_getElem_eq
  intro i hi
  rw [byteOf, word]
  rcases hs with rfl | rfl | rfl | rfl <;> interval_cases k <;>
    simp only [BitVec.getElem_setWidth, BitVec.getLsbD_ushiftRight, BitVec.getLsbD_append,
      BitVec.getLsbD_and, BitVec.getElem_and, BitVec.getElem_ushiftRight,
      BitVec.getElem_shiftLeft, BitVec.getLsbD_shiftLeft] <;>
    interval_cases i <;> simp

/-- What the masks over words take from each byte. -/
theorem scalesQ3K_eq (scales : Nat → Byte) (h : is < 16) :
    scalesQ3K scales is = scales (is % 8) >>> (4 * (is / 8)) &&& 0xF#8 |||
      (scales (8 + is % 4) >>> (2 * (is / 4)) &&& 3#8) <<< 4 := by
  have hk : is % 4 < 4 := Nat.mod_lt _ (by decide)
  have hbyte (w s s' : Nat) (hs : s = 0 ∨ s = 4) (hs' : s' = 0 ∨ s' = 2 ∨ s' = 4 ∨ s' = 6) :
      byteOf (word (fun k => scales (4 * w + k)) >>> s &&& 0x0f0f0f0f#32 |||
        (word (fun k => scales (4 * 2 + k)) >>> s' &&& 0x03030303#32) <<< 4) (is % 4) =
      scales (4 * w + is % 4) >>> s &&& 0xF#8 ||| (scales (8 + is % 4) >>> s' &&& 3#8) <<< 4 := by
    rw [byteOf_or, byteOf_low _ hs hk, byteOf_high _ hs' hk]
  rw [scalesQ3K]
  interval_cases is
  all_goals first
    | exact hbyte 0 0 0 (by decide) (by decide)
    | exact hbyte 1 0 2 (by decide) (by decide)
    | exact hbyte 0 4 4 (by decide) (by decide)
    | exact hbyte 1 4 6 (by decide) (by decide)

theorem dequantizeRowQ3K_eq (x : BlockQ3K) :
    dequantizeRowQ3K x = (List.range 256).map fun p =>
      ⟨x.d, noHalf, (scalesQ3K x.scales (p / 16)).toInt - 32, 0, (twoBits x.qs p).toInt -
        (if x.hmask (p % 32) &&& 1#8 <<< (p / 32) ≠ 0 then 0 else 4)⟩ := by
  refine (flatMap_sixteens fun n j h l => (⟨x.d, noHalf,
    (scalesQ3K x.scales (8 * n + 2 * j + h)).toInt - 32, 0,
    (x.qs (32 * n + (l + 16 * h)) >>> (2 * j) &&& 3#8).toInt -
      (if x.hmask (l + 16 * h) &&& 1#8 <<< (4 * n + j) ≠ 0 then 0 else 4)⟩ : Weight)).trans ?_
  apply List.map_congr_left
  intro p _
  have hbit : 4 * (p / 128) + p % 128 / 32 = p / 32 := by omega
  rw [sixteenth, column, hbit, twoBits]

/-- The low bits of an element of a format with four of them. -/
def fourBits (qs : Nat → Byte) (p : Nat) : Byte :=
  qs (32 * (p / 64) + p % 32) >>> (4 * (p % 64 / 32)) &&& 0xF#8

theorem shift_four_eq (x : Byte) : x >>> 4 &&& 0xF#8 = x >>> 4 := by
  apply BitVec.eq_of_getLsbD_eq
  intro i hi
  simp only [BitVec.getLsbD_and, BitVec.getLsbD_ushiftRight]
  interval_cases i <;> simp

theorem dequantizeRowQ4K_eq (x : BlockQ4K) :
    dequantizeRowQ4K x = (List.range 256).map fun p =>
      ⟨x.d, x.dmin, (getScaleMinK4 (p / 32) x.scales).1.toNat,
        (getScaleMinK4 (p / 32) x.scales).2.toNat, (fourBits x.qs p).toNat⟩ := by
  have hsteps := flatMap_thirtyTwos fun j h l => (⟨x.d, x.dmin,
    (getScaleMinK4 (2 * j + h) x.scales).1.toNat, (getScaleMinK4 (2 * j + h) x.scales).2.toNat,
    (x.qs (32 * j + l) >>> (4 * h) &&& 0xF#8).toNat⟩ : Weight)
  simp only [shift_four_eq, Nat.mul_one, Nat.mul_zero, BitVec.ushiftRight_zero] at hsteps
  refine hsteps.trans ?_
  apply List.map_congr_left
  intro p _
  rw [thirtySecond, fourBits]

theorem dequantizeRowQ5K_eq (x : BlockQ5K) :
    dequantizeRowQ5K x = (List.range 256).map fun p =>
      ⟨x.d, x.dmin, (getScaleMinK4 (p / 32) x.scales).1.toNat,
        (getScaleMinK4 (p / 32) x.scales).2.toNat, ((fourBits x.qs p).toNat +
          (if x.qh (p % 32) &&& 1#8 <<< (p / 32) ≠ 0 then 16 else 0) : Nat)⟩ := by
  have hsteps := flatMap_thirtyTwos fun j h l => (⟨x.d, x.dmin,
    (getScaleMinK4 (2 * j + h) x.scales).1.toNat, (getScaleMinK4 (2 * j + h) x.scales).2.toNat,
    ((x.qs (32 * j + l) >>> (4 * h) &&& 0xF#8).toNat +
      (if x.qh l &&& 1#8 <<< (2 * j + h) ≠ 0 then 16 else 0) : Nat)⟩ : Weight)
  have htwo (j : Nat) : 1#8 <<< (2 * j + 1) = 2#8 <<< (2 * j) := by
    rw [Nat.add_comm, BitVec.shiftLeft_add]
    rfl
  simp only [shift_four_eq, Nat.mul_one, Nat.mul_zero, BitVec.ushiftRight_zero, htwo,
    Nat.add_zero] at hsteps
  refine hsteps.trans ?_
  apply List.map_congr_left
  intro p _
  rw [thirtySecond, fourBits]

theorem dequantizeRowQ6K_eq (x : BlockQ6K) :
    dequantizeRowQ6K x = (List.range 256).map fun p =>
      ⟨x.d, noHalf, (x.scales (p / 16)).toInt, 0, (elementQ6K (fun i => x.ql (64 * (p / 128) + i))
        (fun i => x.qh (32 * (p / 128) + i)) (p % 32) (p % 128 / 32)).toInt - 32⟩ := by
  have hrow (n : Nat) := flatMap_range_map (fun k l => (⟨x.d, noHalf,
    (x.scales (8 * n + (l / 16 + 2 * k))).toInt, 0,
    (elementQ6K (fun i => x.ql (64 * n + i)) (fun i => x.qh (32 * n + i)) l k).toInt - 32⟩ :
      Weight)) 4 32
  rw [dequantizeRowQ6K]
  simp only [hrow]
  rw [flatMap_range_map (fun n p => (⟨x.d, noHalf,
    (x.scales (8 * n + (p % 32 / 16 + 2 * (p / 32)))).toInt, 0,
    (elementQ6K (fun i => x.ql (64 * n + i)) (fun i => x.qh (32 * n + i)) (p % 32)
      (p / 32)).toInt - 32⟩ : Weight)) 2 128]
  apply List.map_congr_left
  intro p _
  have hscale : 8 * (p / 128) + (p % 128 % 32 / 16 + 2 * (p % 128 / 32)) = p / 16 := by omega
  rw [hscale, Nat.mod_mod_of_dvd p (by decide : 32 ∣ 128)]

/-- The position of an element in the two planes of the low bits. -/
theorem elementQ6K_eq (ql qh : Nat → Byte) (l : Nat) (hk : k < 4) :
    elementQ6K ql qh l k =
      (ql (l + 32 * (k % 2)) >>> (4 * (k / 2)) &&& 0xF#8) ||| (qh l >>> (2 * k) &&& 3#8) <<< 4 := by
  interval_cases k
  · rfl
  · rfl
  · exact congrArg (· ||| _) (shift_four_eq (ql l)).symm
  · exact congrArg (· ||| _) (shift_four_eq (ql (l + 32))).symm

end ActQuant.KQuant
