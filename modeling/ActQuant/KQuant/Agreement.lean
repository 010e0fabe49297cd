import ActQuant.KQuant.Readers
import ActQuant.Lib.Bytes

namespace ActQuant.KQuant
open ActQuant.Lib

/-! The reader of gguf-py takes the same codes from the bytes of a block. -/

/-- A number of half width at a position. -/
def halfAt (block : List Byte) (i : Nat) : Half := (byteAt block i, byteAt block (i + 1))

/-! The fields of a block lie one after the other. -/

def BlockQ2K.ofBytes (block : List Byte) : BlockQ2K where
  scales i := byteAt block i
  qs i := byteAt block (16 + i)
  d := halfAt block 80
  dmin := halfAt block 82

def BlockQ3K.ofBytes (block : List Byte) : BlockQ3K where
  hmask i := byteAt block i
  qs i := byteAt block (32 + i)
  scales i := byteAt block (96 + i)
  d := halfAt block 108

def BlockQ4K.ofBytes (block : List Byte) : BlockQ4K where
  d := halfAt block 0
  dmin := halfAt block 2
  scales i := byteAt block (4 + i)
  qs i := byteAt block (16 + i)

def BlockQ5K.ofBytes (block : List Byte) : BlockQ5K where
  d := halfAt block 0
  dmin := halfAt block 2
  scales i := byteAt block (4 + i)
  qh i := byteAt block (16 + i)
  qs i := byteAt block (48 + i)

def BlockQ6K.ofBytes (block : List Byte) : BlockQ6K where
  ql i := byteAt block i
  qh i := byteAt block (128 + i)
  scales i := byteAt block (192 + i)
  d := halfAt block 208

/-! ### Entries of the arrays -/

theorem toInts_getD (bytes : List Byte) (i : Nat) :
    (toInts bytes).getD i 0 = (byteAt bytes i).toNat := by
  rw [toInts, byteAt, List.getD_eq_getElem?_getD, List.getElem?_map, List.getD_eq_getElem?_getD]
  cases bytes[i]? <;> rfl

theorem toInt8s_getD (bytes : List Byte) (i : Nat) :
    (toInt8s bytes).getD i 0 = (byteAt bytes i).toInt := by
  rw [toInt8s, byteAt, List.getD_eq_getElem?_getD, List.getElem?_map,
    List.getD_eq_getElem?_getD]
  cases bytes[i]? <;> rfl

theorem byteAt_eq_getElem {bytes : List Byte} (h : i < bytes.length) :
    bytes[i]? = some (byteAt bytes i) := by
  rw [byteAt, List.getD_eq_getElem?_getD, List.getElem?_eq_getElem h]
  rfl

theorem toInt8s_getElem? {bytes : List Byte} (h : i < bytes.length) :
    (toInt8s bytes)[i]? = some (byteAt bytes i).toInt := by
  rw [toInt8s, List.getElem?_map, byteAt_eq_getElem h]
  rfl

theorem toInt8s_sub_getD {bytes : List Byte} (h : i < bytes.length) :
    ((toInt8s bytes).map (· - 32)).getD i 0 = (byteAt bytes i).toInt - 32 := by
  rw [List.getD_eq_getElem?_getD, List.getElem?_map, toInt8s_getElem? h]
  rfl

theorem byteAt_map {bytes : List Byte} (f : Byte → Byte) (h : i < bytes.length) :
    byteAt (bytes.map f) i = f (byteAt bytes i) := by
  rw [byteAt, List.getD_eq_getElem?_getD, List.getElem?_map, byteAt_eq_getElem h]
  rfl

theorem getD_zipWith {as bs : List α} {f : α → α → β} (ha : as[i]? = some a)
    (hb : bs[i]? = some b) (z : β) : (List.zipWith f as bs).getD i z = f a b := by
  rw [List.getD_eq_getElem?_getD, List.getElem?_zipWith, ha, hb]
  rfl

theorem byteAt_zipWith {as bs : List Byte} (f : Byte → Byte → Byte) (ha : i < as.length)
    (hb : i < bs.length) :
    byteAt (List.zipWith f as bs) i = f (byteAt as i) (byteAt bs i) :=
  getD_zipWith (byteAt_eq_getElem ha) (byteAt_eq_getElem hb) 0

theorem byteAt_append {as : List Byte} (bs : List Byte) (i : Nat) :
    byteAt (as ++ bs) i = if i < as.length then byteAt as i else byteAt bs (i - as.length) := by
  rw [byteAt, List.getD_eq_getElem?_getD, List.getElem?_append, byteAt, byteAt,
    List.getD_eq_getElem?_getD, List.getD_eq_getElem?_getD]
  split <;> rfl

theorem length_planes (width : Nat) (shifts : List Nat) (bytes : List Byte) :
    (planes width shifts bytes).length = bytes.length / width * (shifts.length * width) := by
  rw [planes_eq, List.length_map, List.length_range]

theorem byteAt_planes {width : Nat} {shifts : List Nat} {bytes : List Byte}
    (h : p < bytes.length / width * (shifts.length * width)) :
    byteAt (planes width shifts bytes) p =
      byteAt bytes (p / (shifts.length * width) * width + p % width) >>>
        shifts.getD (p % (shifts.length * width) / width) 0 := by
  rw [planes_eq, byteAt_map_range _ h]

/-- A field between two others. -/
def field (block : List Byte) (start n : Nat) : List Byte := (block.drop start).take n

theorem byteAt_field (block : List Byte) (start : Nat) (h : i < n) :
    byteAt (field block start n) i = byteAt block (start + i) := by
  rw [field, byteAt_take _ h, byteAt_drop]

theorem length_field {block : List Byte} (h : start + n ≤ block.length) :
    (field block start n).length = n := by
  rw [field, List.length_take, List.length_drop]
  omega

theorem viewHalf_drop (block : List Byte) (start : Nat) :
    viewHalf (block.drop start) = halfAt block start := by
  rw [viewHalf, byteAt_drop, byteAt_drop]
  rfl

theorem viewHalf_take (bytes : List Byte) : viewHalf (bytes.take 2) = viewHalf bytes := by
  rw [viewHalf, byteAt_take _ (by decide), byteAt_take _ (by decide)]
  rfl

theorem broadcast_eq {x : Nat → Weight} (sub : Nat) {d dmin : Half} {scales mins qs : List Int}
    (h : ∀ p < 256, (⟨d, dmin, scales.getD (p / sub) 0, mins.getD (p / sub) 0, qs.getD p 0⟩ :
      Weight) = x p) :
    broadcast sub d dmin scales mins qs = (List.range 256).map x := by
  apply List.map_congr_left
  intro p hp
  exact h p (List.mem_range.1 hp)

/-- The planes of two bits each are the low bits of the elements. -/
theorem byteAt_twoBits {qs : List Byte} (hlen : qs.length = 64) (hp : p < 256) :
    byteAt ((planes 32 [0, 2, 4, 6] qs).map fun x : Byte => x &&& 3#8) p = twoBits (byteAt qs) p := by
  have htotal : p < qs.length / 32 * ([0, 2, 4, 6].length * 32) := by
    rw [hlen]
    exact hp
  have hshift : [0, 2, 4, 6].getD (p % 128 / 32) 0 = 2 * (p % 128 / 32) := by
    have hj : p % 128 / 32 < 4 := by omega
    interval_cases p % 128 / 32 <;> rfl
  rw [byteAt_map _ (by rw [length_planes]; exact htotal), byteAt_planes htotal, twoBits]
  simp only [List.length_cons, List.length_nil]
  rw [hshift, Nat.mul_comm 32]

theorem byteAt_fourBits {qs : List Byte} (hlen : qs.length = 128) (hp : p < 256) :
    byteAt ((planes 32 [0, 4] qs).map fun x : Byte => x &&& 0x0F#8) p = fourBits (byteAt qs) p := by
  have htotal : p < qs.length / 32 * ([0, 4].length * 32) := by
    rw [hlen]
    exact hp
  have hshift : [0, 4].getD (p % 64 / 32) 0 = 4 * (p % 64 / 32) := by
    have hj : p % 64 / 32 < 2 := by omega
    interval_cases p % 64 / 32 <;> rfl
  rw [byteAt_map _ (by rw [length_planes]; exact htotal), byteAt_planes htotal, fourBits]
  simp only [List.length_cons, List.length_nil]
  rw [hshift, Nat.mul_comm 32]

/-- The planes of one bit each. -/
theorem byteAt_oneBits {bits : List Byte} (hlen : bits.length = 32) (hp : p < 256) :
    byteAt (planes 32 [0, 1, 2, 3, 4, 5, 6, 7] bits) p = byteAt bits (p % 32) >>> (p / 32) := by
  have htotal : p < bits.length / 32 * ([0, 1, 2, 3, 4, 5, 6, 7].length * 32) := by
    rw [hlen]
    exact hp
  have hshift : [0, 1, 2, 3, 4, 5, 6, 7].getD (p % 256 / 32) 0 = p / 32 := by
    have hj : p % 256 / 32 < 8 := by omega
    rw [Nat.mod_eq_of_lt hp] at hj ⊢
    interval_cases p / 32 <;> rfl
  have hrow : p / 256 = 0 := by omega
  rw [byteAt_planes htotal]
  simp only [List.length_cons, List.length_nil]
  rw [hshift, hrow, Nat.zero_mul, Nat.zero_add]

theorem toInt_twoBits (qs : Nat → Byte) (p : Nat) :
    ((twoBits qs p).toNat : Int) = (twoBits qs p).toInt := by
  have hle : (twoBits qs p).toNat ≤ 3 := by
    rw [twoBits, BitVec.toNat_and]
    exact Nat.and_le_right
  rw [BitVec.toInt_eq_toNat_of_lt (by omega)]

theorem twoBits_congr {qs qs' : Nat → Byte} (h : ∀ i < 64, qs i = qs' i) (hp : p < 256) :
    twoBits qs p = twoBits qs' p := by
  rw [twoBits, h _ (by omega), twoBits]

theorem fourBits_congr {qs qs' : Nat → Byte} (h : ∀ i < 128, qs i = qs' i) (hp : p < 256) :
    fourBits qs p = fourBits qs' p := by
  rw [fourBits, h _ (by omega), fourBits]

theorem q2K_agree {block : List Byte} (h : block.length = 84) :
    Q2K.dequantizeBlocks block = dequantizeRowQ2K (BlockQ2K.ofBytes block) := by
  have hqs : ((block.drop 16).take 64).length = 64 := length_field (by omega)
  rw [dequantizeRowQ2K_eq]
  apply broadcast_eq
  intro p hp
  have hscales : p / 16 < (block.take 16).length := by
    rw [List.length_take]
    omega
  have hbits : twoBits (byteAt ((block.drop 16).take 64)) p =
      twoBits (BlockQ2K.ofBytes block).qs p :=
    twoBits_congr (fun i hi => byteAt_field block 16 hi) hp
  simp only [List.drop_drop, Nat.reduceAdd]
  rw [viewHalf_take, viewHalf_drop, viewHalf_drop, toInts_getD, toInts_getD, toInts_getD,
    byteAt_map _ hscales, byteAt_map _ hscales, byteAt_take _ (by omega),
    byteAt_twoBits hqs hp, toInt_twoBits, hbits]
  rfl

/-- A mask that is set takes nothing off. -/
theorem high_offset (h : Byte) (hk : k < 8) :
    ((((h >>> k &&& 1#8) ^^^ 1#8) <<< 2).toInt) = if h &&& 1#8 <<< k ≠ 0 then 0 else 4 := by
  refine (congrArg (fun b => ((b ^^^ 1#8) <<< 2).toInt) (shift_and_one h hk)).trans ?_
  split <;> rfl

theorem q3K_scale {scales : List Byte} (hlen : scales.length = 12) (hj : j < 16) :
    byteAt (List.zipWith (fun l h : Byte => (l &&& 0x0F#8) ||| (h &&& 0x03#8) <<< 4)
      (planes 8 [0, 4] (scales.take 8)) (planes 4 [0, 2, 4, 6] (scales.drop 8))) j =
      scalesQ3K (byteAt scales) j := by
  have hlow : j < (scales.take 8).length / 8 * ([0, 4].length * 8) := by
    rw [List.length_take, hlen]
    exact hj
  have hhigh : j < (scales.drop 8).length / 4 * ([0, 2, 4, 6].length * 4) := by
    rw [List.length_drop, hlen]
    exact hj
  have hs : [0, 4].getD (j % (2 * 8) / 8) 0 = 4 * (j / 8) := by
    interval_cases j <;> rfl
  have hs' : [0, 2, 4, 6].getD (j % (4 * 4) / 4) 0 = 2 * (j / 4) := by
    interval_cases j <;> rfl
  rw [byteAt_zipWith _ (by rwa [length_planes]) (by rwa [length_planes]), byteAt_planes hlow,
    byteAt_planes hhigh, scalesQ3K_eq _ hj]
  simp only [List.length_cons, List.length_nil, Nat.zero_add, Nat.reduceAdd]
  rw [hs, hs', byteAt_take _ (by omega), byteAt_drop]
  have hrow : j / (2 * 8) * 8 + j % 8 = j % 8 := by omega
  have hrow' : j / (4 * 4) * 4 + j % 4 = j % 4 := by omega
  rw [hrow, hrow']

theorem scalesQ3K_congr {scales scales' : Nat → Byte} (h : ∀ i < 12, scales i = scales' i)
    (hj : j < 16) : scalesQ3K scales j = scalesQ3K scales' j := by
  rw [scalesQ3K_eq _ hj, scalesQ3K_eq _ hj, h _ (by omega), h _ (by omega)]

/-- The codes of three bits, with the offset of the elements whose mask is not set. -/
theorem q3K_element {qs hmask : List Byte} (hqs : qs.length = 64) (hmask32 : hmask.length = 32)
    (hp : p < 256) :
    (List.zipWith (fun l h : Int => l - h)
      (toInt8s ((planes 32 [0, 2, 4, 6] qs).map fun x : Byte => x &&& 3#8))
      (toInt8s (((planes 32 [0, 1, 2, 3, 4, 5, 6, 7] hmask).map fun h : Byte =>
        (h &&& 1#8) ^^^ 1#8).map fun h : Byte => h <<< 2))).getD p 0 =
      (twoBits (byteAt qs) p).toInt -
        (if byteAt hmask (p % 32) &&& 1#8 <<< (p / 32) ≠ 0 then 0 else 4) := by
  have hql : ((planes 32 [0, 2, 4, 6] qs).map fun x : Byte => x &&& 3#8).length = 256 := by
    rw [List.length_map, length_planes, hqs]
    rfl
  have hqh : (planes 32 [0, 1, 2, 3, 4, 5, 6, 7] hmask).length = 256 := by
    rw [length_planes, hmask32]
    rfl
  have hbit : byteAt (((planes 32 [0, 1, 2, 3, 4, 5, 6, 7] hmask).map fun h : Byte =>
      (h &&& 1#8) ^^^ 1#8).map fun h : Byte => h <<< 2) p =
      ((byteAt hmask (p % 32) >>> (p / 32) &&& 1#8) ^^^ 1#8) <<< 2 := by
    rw [byteAt_map _ (by rwa [List.length_map, hqh]), byteAt_map _ (by rwa [hqh]),
      byteAt_oneBits hmask32 hp]
  rw [getD_zipWith (toInt8s_getElem? (by rwa [hql]))
    (toInt8s_getElem? (by rwa [List.length_map, List.length_map, hqh])),
    byteAt_twoBits hqs hp, hbit, high_offset _ (by omega)]

theorem q3K_agree {block : List Byte} (h : block.length = 110) :
    Q3K.dequantizeBlocks block = dequantizeRowQ3K (BlockQ3K.ofBytes block) := by
  have hmask : (block.take 32).length = 32 := by
    rw [List.length_take]
    omega
  have hqs : ((block.drop 32).take 64).length = 64 := length_field (by omega)
  have hscales : ((block.drop 96).take 12).length = 12 := length_field (by omega)
  rw [dequantizeRowQ3K_eq]
  apply broadcast_eq
  intro p hp
  have hj : p / 16 < 16 := by omega
  have hbits : twoBits (byteAt ((block.drop 32).take 64)) p =
      twoBits (BlockQ3K.ofBytes block).qs p :=
    twoBits_congr (fun i hi => byteAt_field block 32 hi) hp
  have hscale : scalesQ3K (byteAt ((block.drop 96).take 12)) (p / 16) =
      scalesQ3K (BlockQ3K.ofBytes block).scales (p / 16) :=
    scalesQ3K_congr (fun i hi => byteAt_field block 96 hi) hj
  simp only [List.drop_drop, Nat.reduceAdd]
  rw [viewHalf_drop, toInt8s_sub_getD (by
      rw [List.length_zipWith, length_planes, length_planes, List.length_take, List.length_drop,
        hscales]
      exact hj), q3K_scale hscales hj, hscale, q3K_element hqs hmask hp, hbits,
    byteAt_take _ (by omega)]
  rfl

theorem getScaleMin_eq {scales : List Byte} (hlen : scales.length = 12) (hj : j < 8) :
    byteAt (Q4K.getScaleMin scales).1 j = (getScaleMinK4 j (byteAt scales)).1 ∧
      byteAt (Q4K.getScaleMin scales).2 j = (getScaleMinK4 j (byteAt scales)).2 := by
  have hhigh (x : Byte) : x >>> 2 &&& 0x30#8 = (x >>> 6) <<< 4 := by
    apply BitVec.eq_of_getLsbD_eq
    intro i hi
    simp only [BitVec.getLsbD_and, BitVec.getLsbD_shiftLeft, BitVec.getLsbD_ushiftRight]
    interval_cases i <;> simp
  have hd : (scales.take 4).length = 4 := by
    rw [List.length_take]
    omega
  have hm : ((scales.drop 4).take 4).length = 4 := length_field (by omega)
  have hmD : (scales.drop 8).length = 4 := by
    rw [List.length_drop]
    omega
  simp only [Q4K.getScaleMin, hsplit, List.drop_drop, Nat.reduceAdd]
  rw [byteAt_append, byteAt_append, List.length_map, List.length_map, hd, hm, getScaleMinK4]
  split
  case isTrue h4 =>
    rw [byteAt_map _ (by omega), byteAt_map _ (by omega), byteAt_take _ h4]
    have hfield := byteAt_field scales 4 h4
    rw [field, Nat.add_comm] at hfield
    rw [hfield]
    exact ⟨rfl, rfl⟩
  case isFalse h4 =>
    have hfield := byteAt_field scales 4 (by omega : j - 4 < 4)
    rw [field] at hfield
    rw [byteAt_zipWith _ (by omega) (by omega), byteAt_zipWith _ (by omega) (by omega),
      byteAt_drop, byteAt_take _ (by omega), hfield, hhigh, hhigh]
    have h8 : 8 + (j - 4) = j + 4 := by omega
    have h0 : 4 + (j - 4) = j := by omega
    rw [h8, h0]
    exact ⟨rfl, rfl⟩

theorem getScaleMinK4_congr {q q' : Nat → Byte} (h : ∀ i < 12, q i = q' i) (hj : j < 8) :
    getScaleMinK4 j q = getScaleMinK4 j q' := by
  rw [getScaleMinK4, getScaleMinK4]
  split
  case isTrue => rw [h _ (by omega), h _ (by omega)]
  case isFalse => rw [h _ (by omega), h _ (by omega), h _ (by omega)]

/-- The scale and the minimum of a sub-block, from the bytes of a block. -/
theorem scaleMin_agree {block : List Byte} (h : 16 ≤ block.length) (hj : j < 8) :
    (toInts (Q4K.getScaleMin ((block.drop 4).take 12)).1).getD j 0 =
        (getScaleMinK4 j fun i => byteAt block (4 + i)).1.toNat ∧
      (toInts (Q4K.getScaleMin ((block.drop 4).take 12)).2).getD j 0 =
        (getScaleMinK4 j fun i => byteAt block (4 + i)).2.toNat := by
  have hlen : ((block.drop 4).take 12).length = 12 := length_field (by omega)
  have hfield : getScaleMinK4 j (byteAt ((block.drop 4).take 12)) =
      getScaleMinK4 j fun i => byteAt block (4 + i) :=
    getScaleMinK4_congr (fun i hi => byteAt_field block 4 hi) hj
  obtain ⟨hsc, hmin⟩ := getScaleMin_eq hlen hj
  rw [toInts_getD, toInts_getD, hsc, hmin, hfield]
  exact ⟨rfl, rfl⟩

theorem q4K_agree {block : List Byte} (h : block.length = 144) :
    Q4K.dequantizeBlocks block = dequantizeRowQ4K (BlockQ4K.ofBytes block) := by
  have hqs : (block.drop 16).length = 128 := by
    rw [List.length_drop]
    omega
  rw [dequantizeRowQ4K_eq]
  apply broadcast_eq
  intro p hp
  obtain ⟨hsc, hmin⟩ := scaleMin_agree (by omega : 16 ≤ block.length) (by omega : p / 32 < 8)
  have hbits : fourBits (byteAt (block.drop 16)) p = fourBits (BlockQ4K.ofBytes block).qs p :=
    fourBits_congr (fun i _ => byteAt_drop block 16 i) hp
  have hd := viewHalf_drop block 0
  rw [List.drop_zero] at hd
  simp only [List.drop_drop, Nat.reduceAdd]
  rw [viewHalf_take, hd, viewHalf_take, viewHalf_drop, hsc, hmin, toInts_getD,
    byteAt_fourBits hqs hp, hbits]
  rfl

/-- The fifth bit adds sixteen. -/
theorem fifth_bit (l h : Byte) (hk : k < 8) :
    ((l &&& 0xF#8) ||| (h >>> k &&& 1#8) <<< 4).toNat =
      (l &&& 0xF#8).toNat + if h &&& 1#8 <<< k ≠ 0 then 16 else 0 := by
  have hapart : (l &&& 0xF#8) &&& 1#8 <<< 4 = 0#8 := by
    rw [BitVec.and_assoc]
    exact BitVec.and_zero
  have hle : (l &&& 0xF#8).toNat ≤ 15 := by
    rw [BitVec.toNat_and]
    exact Nat.and_le_right
  rw [shift_and_one h hk]
  split
  case isTrue =>
    rw [← BitVec.add_eq_or_of_and_eq_zero _ _ hapart, BitVec.toNat_add]
    exact Nat.mod_eq_of_lt (Nat.add_lt_of_lt_sub (lt_of_le_of_lt hle (by decide)))
  case isFalse =>
    rw [BitVec.zero_shiftLeft, BitVec.or_zero]
    rfl

theorem q5K_agree {block : List Byte} (h : block.length = 176) :
    Q5K.dequantizeBlocks block = dequantizeRowQ5K (BlockQ5K.ofBytes block) := by
  have hqs : (block.drop 48).length = 128 := by
    rw [List.length_drop]
    omega
  have hqh : ((block.drop 16).take 32).length = 32 := length_field (by omega)
  have hql : ((planes 32 [0, 4] (block.drop 48)).map fun x : Byte => x &&& 0x0F#8).length = 256 := by
    rw [List.length_map, length_planes, hqs]
    rfl
  have hhigh : (planes 32 [0, 1, 2, 3, 4, 5, 6, 7] ((block.drop 16).take 32)).length = 256 := by
    rw [length_planes, hqh]
    rfl
  rw [dequantizeRowQ5K_eq]
  apply broadcast_eq
  intro p hp
  obtain ⟨hsc, hmin⟩ := scaleMin_agree (by omega : 16 ≤ block.length) (by omega : p / 32 < 8)
  have hbits : fourBits (byteAt (block.drop 48)) p = fourBits (BlockQ5K.ofBytes block).qs p :=
    fourBits_congr (fun i _ => byteAt_drop block 48 i) hp
  have hbit : byteAt ((block.drop 16).take 32) (p % 32) = (BlockQ5K.ofBytes block).qh (p % 32) :=
    byteAt_field block 16 (by omega)
  have hd := viewHalf_drop block 0
  rw [List.drop_zero] at hd
  simp only [List.drop_drop, Nat.reduceAdd]
  rw [viewHalf_take, hd, viewHalf_take, viewHalf_drop, hsc, hmin, toInts_getD,
    byteAt_zipWith _ (by rwa [hql]) (by rwa [List.length_map, hhigh]), byteAt_fourBits hqs hp,
    byteAt_map _ (by rwa [hhigh]), byteAt_oneBits hqh hp, hbits, hbit, fourBits,
    fifth_bit _ _ (by omega)]
  rfl

theorem q6K_agree {block : List Byte} (h : block.length = 210) :
    Q6K.dequantizeBlocks block = dequantizeRowQ6K (BlockQ6K.ofBytes block) := by
  have hlow : (block.take 128).length = 128 := by
    rw [List.length_take]
    omega
  have hhigh : ((block.drop 128).take 64).length = 64 := length_field (by omega)
  have hql : (planes 64 [0, 4] (block.take 128)).length = 256 := by
    rw [length_planes, hlow]
    rfl
  have hqh : ((planes 32 [0, 2, 4, 6] ((block.drop 128).take 64)).map fun x : Byte =>
      x &&& 3#8).length = 256 := by
    rw [List.length_map, length_planes, hhigh]
    rfl
  rw [dequantizeRowQ6K_eq]
  apply broadcast_eq
  intro p hp
  have htotal : p < (block.take 128).length / 64 * ([0, 4].length * 64) := by
    rw [hlow]
    exact hp
  have hshift : [0, 4].getD (p % 128 / 64) 0 = 4 * (p % 128 / 32 / 2) := by
    have hs : p % 128 / 32 / 2 = p % 128 / 64 := by omega
    rw [hs]
    have hj : p % 128 / 64 < 2 := by omega
    interval_cases p % 128 / 64 <;> rfl
  have hplane : p / 128 * 64 + p % 64 = 64 * (p / 128) + (p % 32 + 32 * (p % 128 / 32 % 2)) := by
    omega
  have hbits : twoBits (byteAt ((block.drop 128).take 64)) p =
      twoBits (BlockQ6K.ofBytes block).qh p :=
    twoBits_congr (fun i hi => byteAt_field block 128 hi) hp
  simp only [List.drop_drop, Nat.reduceAdd]
  rw [viewHalf_drop, toInt8s_getD, toInt8s_sub_getD (by
      rw [List.length_zipWith, List.length_map, hql, hqh]
      exact hp),
    byteAt_zipWith _ (by rwa [List.length_map, hql]) (by rwa [hqh]),
    byteAt_map _ (by rwa [hql]), byteAt_planes htotal, byteAt_twoBits hhigh hp, hbits,
    elementQ6K_eq _ _ _ (by omega : p % 128 / 32 < 4)]
  simp only [List.length_cons, List.length_nil, Nat.zero_add, Nat.reduceAdd]
  rw [hshift, hplane, byteAt_take _ (by omega : p / 16 < 16), byteAt_drop,
    byteAt_take _ (by omega), twoBits]
  rfl

end ActQuant.KQuant
