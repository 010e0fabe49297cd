import ActQuant.KQuant.Readers
import ActQuant.Lib.Bytes
import Mathlib.Tactic.FinCases

namespace ActQuant.KQuant
open ActQuant.Lib

/-! Fields of bits within bytes. -/

/-- A number below 256 as a byte. -/
abbrev byte (n : Nat) : Byte := BitVec.ofNat 8 n

/-- The byte of four fields of two bits. -/
def quarters (a b c d : Byte) : Byte := a ||| b <<< 2 ||| c <<< 4 ||| d <<< 6

theorem quarters_field (a b c d k : Fin 4) :
    quarters (byte a) (byte b) (byte c) (byte d) >>> (2 * k.val) &&& 3#8 =
      byte ([a, b, c, d].getD k 0) := by
  have habove (a : Fin 4) (i : Nat) (hi : i < 8) : 2 ≤ i → (byte a)[i] = false :=
    ofNat_above (w := 2) a.isLt hi
  apply BitVec.eq_of_getLsbD_eq
  intro i hi
  simp only [quarters, BitVec.getLsbD_and, BitVec.getLsbD_or, BitVec.getLsbD_shiftLeft,
    BitVec.getLsbD_ushiftRight]
  fin_cases k <;> interval_cases i <;> simp [habove]

/-- A byte of two fields of four bits. -/
theorem halves_field (a b : Fin 16) (k : Fin 2) :
    (byte a ||| byte b <<< 4) >>> (4 * k.val) &&& 0xF#8 = byte ([a, b].getD k 0) := by
  have habove (a : Fin 16) (i : Nat) (hi : i < 8) : 4 ≤ i → (byte a)[i] = false :=
    ofNat_above (w := 4) a.isLt hi
  apply BitVec.eq_of_getLsbD_eq
  intro i hi
  simp only [BitVec.getLsbD_and, BitVec.getLsbD_or, BitVec.getLsbD_shiftLeft,
    BitVec.getLsbD_ushiftRight]
  fin_cases k <;> interval_cases i <;> simp [habove]

/-- The low and the high bits of two codes share a byte. -/
theorem low_of_halves (a b : Byte) :
    (a &&& 0xF#8 ||| (b &&& 0xF#8) <<< 4) &&& 0xF#8 = a &&& 0xF#8 ∧
      (a &&& 0xF#8 ||| (b &&& 0xF#8) <<< 4) >>> 4 = b &&& 0xF#8 := by
  refine ⟨BitVec.eq_of_getLsbD_eq fun i hi => ?_, BitVec.eq_of_getLsbD_eq fun i hi => ?_⟩
  · simp only [BitVec.getLsbD_and, BitVec.getLsbD_or, BitVec.getLsbD_shiftLeft]
    interval_cases i <;> simp
  · simp only [BitVec.getLsbD_and, BitVec.getLsbD_or, BitVec.getLsbD_shiftLeft,
      BitVec.getLsbD_ushiftRight]
    interval_cases i <;> simp

theorem six_and_two (a b : Fin 64) :
    (byte a ||| (byte b >>> 4) <<< 6) &&& 63#8 = byte a ∧
      (byte a ||| (byte b >>> 4) <<< 6) >>> 6 = byte b >>> 4 := by
  have habove (a : Fin 64) (i : Nat) (hi : i < 8) : 6 ≤ i → (byte a)[i] = false :=
    ofNat_above (w := 6) a.isLt hi
  refine ⟨BitVec.eq_of_getLsbD_eq fun i hi => ?_, BitVec.eq_of_getLsbD_eq fun i hi => ?_⟩
  · simp only [BitVec.getLsbD_and, BitVec.getLsbD_or, BitVec.getLsbD_shiftLeft,
      BitVec.getLsbD_ushiftRight]
    interval_cases i <;> simp [habove]
  · simp only [BitVec.getLsbD_or, BitVec.getLsbD_shiftLeft, BitVec.getLsbD_ushiftRight]
    interval_cases i <;> simp [habove]

/-- The four low bits of a code with the others. -/
theorem low_or_high (a : Byte) : a &&& 0xF#8 ||| (a >>> 4) <<< 4 = a := by
  apply BitVec.eq_of_getLsbD_eq
  intro i hi
  simp only [BitVec.getLsbD_or, BitVec.getLsbD_and, BitVec.getLsbD_shiftLeft,
    BitVec.getLsbD_ushiftRight]
  interval_cases i <;> simp

theorem low_of_low (a : Byte) : a &&& 0xF#8 &&& 0xF#8 = a &&& 0xF#8 := by
  rw [BitVec.and_assoc, BitVec.and_self]

theorem high_lt (a : Fin 64) : byte a >>> 4 = byte (a / 16) := by
  apply BitVec.eq_of_toNat_eq
  rw [BitVec.toNat_ushiftRight, BitVec.toNat_ofNat, BitVec.toNat_ofNat, Nat.shiftRight_eq_div_pow]
  omega

/-- The byte with the bits that are set. -/
def bits (b : Nat → Bool) (n : Nat) : Byte :=
  (List.range n).foldl (fun x k => if b k then x ||| 1#8 <<< k else x) 0

theorem bits_getLsbD (b : Nat → Bool) (n : Nat) (hi : i < 8) :
    (bits b n).getLsbD i = (decide (i < n) && b i) := by
  induction n with
  | zero =>
    exact BitVec.getLsbD_zero
  | succ n ih =>
    have hstep : bits b (n + 1) = if b n then bits b n ||| 1#8 <<< n else bits b n := by
      rw [bits, List.range_succ, List.foldl_append]
      rfl
    have hbit : (1#8 <<< n).getLsbD i = decide (i = n) := by
      rw [← BitVec.twoPow_eq, BitVec.getLsbD_twoPow]
      grind
    rw [hstep]
    cases hb : b n
    case false =>
      grind
    case true =>
      simp only [if_true, BitVec.getLsbD_or, hbit, ih]
      grind

theorem bits_test (b : Nat → Bool) (hk : k < 8) : bits b 8 &&& 1#8 <<< k ≠ 0 ↔ b k = true := by
  refine (and_bit_ne_zero (bits b 8) hk).trans ?_
  rw [bits_getLsbD b 8 hk, decide_eq_true hk, Bool.true_and]


/-! Packing and reading give back the codes. -/

theorem packTwoBits_eq (q : Nat → Nat) (h : i < 64) :
    packTwoBits q i = quarters (byte (q (128 * (i / 32) + i % 32)))
      (byte (q (128 * (i / 32) + i % 32 + 32))) (byte (q (128 * (i / 32) + i % 32 + 64)))
      (byte (q (128 * (i / 32) + i % 32 + 96))) := by
  have hloops := flatMap_range_map (fun j l => quarters (byte (q (128 * j + l)))
    (byte (q (128 * j + l + 32))) (byte (q (128 * j + l + 64))) (byte (q (128 * j + l + 96)))) 2 32
  rw [packTwoBits]
  exact (congrArg (byteAt · i) hloops).trans (byteAt_map_range _ h)

theorem packFourBits_eq (q : Nat → Nat) (h : i < 128) :
    packFourBits q i = byte (q (64 * (i / 32) + i % 32)) |||
      byte (q (64 * (i / 32) + i % 32 + 32)) <<< 4 := by
  have hloops := flatMap_range_map (fun j l => byte (q (64 * j + l)) |||
    byte (q (64 * j + l + 32)) <<< 4) 4 32
  rw [packFourBits]
  exact (congrArg (byteAt · i) hloops).trans (byteAt_map_range _ h)

/-- Codes of two bits are read at the position they were packed from. -/
theorem twoBits_packTwoBits {q : Nat → Nat} (hq : ∀ p < 256, q p < 4) (hp : p < 256) :
    twoBits (packTwoBits q) p = byte (q p) := by
  have hi : 32 * (p / 128) + p % 32 < 64 := by omega
  have hn : (32 * (p / 128) + p % 32) / 32 = p / 128 := by omega
  have hl : (32 * (p / 128) + p % 32) % 32 = p % 32 := by omega
  have hfield (k : Fin 4) := quarters_field ⟨_, hq (128 * (p / 128) + p % 32) (by omega)⟩
    ⟨_, hq (128 * (p / 128) + p % 32 + 32) (by omega)⟩
    ⟨_, hq (128 * (p / 128) + p % 32 + 64) (by omega)⟩
    ⟨_, hq (128 * (p / 128) + p % 32 + 96) (by omega)⟩ k
  rw [twoBits, packTwoBits_eq q hi, hn, hl]
  have hpos : 128 * (p / 128) + p % 32 + 32 * (p % 128 / 32) = p := by omega
  have hj : p % 128 / 32 < 4 := by omega
  refine (hfield ⟨p % 128 / 32, hj⟩).trans ?_
  generalize p % 128 / 32 = j at hpos hj
  interval_cases j <;> exact congrArg (fun i => byte (q i)) hpos

theorem fourBits_packFourBits {q : Nat → Nat} (hq : ∀ p < 256, q p < 16) (hp : p < 256) :
    fourBits (packFourBits q) p = byte (q p) := by
  have hi : 32 * (p / 64) + p % 32 < 128 := by omega
  have hn : (32 * (p / 64) + p % 32) / 32 = p / 64 := by omega
  have hl : (32 * (p / 64) + p % 32) % 32 = p % 32 := by omega
  have hfield (k : Fin 2) := halves_field ⟨_, hq (64 * (p / 64) + p % 32) (by omega)⟩
    ⟨_, hq (64 * (p / 64) + p % 32 + 32) (by omega)⟩ k
  rw [fourBits, packFourBits_eq q hi, hn, hl]
  have hpos : 64 * (p / 64) + p % 32 + 32 * (p % 64 / 32) = p := by omega
  have hj : p % 64 / 32 < 2 := by omega
  refine (hfield ⟨p % 64 / 32, hj⟩).trans ?_
  generalize p % 64 / 32 = j at hpos hj
  interval_cases j <;> exact congrArg (fun i => byte (q i)) hpos

/-! ### The masks of high bits -/

/-- After `n` elements, each byte has the bits of those of them that are its. -/
theorem highBits_run (q : Nat → Nat) (n : Nat) :
    ((List.range n).foldl (highBitStep q) ⟨fun _ => 0, 0, 1⟩).m = n % 32 ∧
      ((List.range n).foldl (highBitStep q) ⟨fun _ => 0, 0, 1⟩).hm = 1#8 <<< (n / 32) ∧
      ∀ p < 32, ((List.range n).foldl (highBitStep q) ⟨fun _ => 0, 0, 1⟩).hmask p =
        bits (fun b => 3 < q (32 * b + p)) (n / 32 + if p < n % 32 then 1 else 0) := by
  induction n with
  | zero => exact ⟨rfl, rfl, fun _ _ => rfl⟩
  | succ n ih =>
    obtain ⟨hm, hhm, hmask⟩ := ih
    rw [List.range_succ, List.foldl_append, List.foldl_cons, List.foldl_nil]
    generalize (List.range n).foldl (highBitStep q) ⟨fun _ => 0, 0, 1⟩ = s at hm hhm hmask
    have hlt : n % 32 < 32 := Nat.mod_lt _ (by decide)
    have hnew : ∀ p < 32, (if 3 < q n then Function.update s.hmask s.m (s.hmask s.m ||| s.hm)
        else s.hmask) p = bits (fun b => 3 < q (32 * b + p))
          (n / 32 + if p ≤ n % 32 then 1 else 0) := by
      intro p hp
      by_cases hpm : p = n % 32
      · subst hpm
        have hpos : 32 * (n / 32) + n % 32 = n := Nat.div_add_mod n 32
        rw [if_pos (Nat.le_refl _), bits, List.range_succ, List.foldl_append, List.foldl_cons,
          List.foldl_nil, ← bits]
        have hold := hmask (n % 32) hlt
        rw [if_neg (Nat.lt_irrefl _), Nat.add_zero] at hold
        simp only [hpos, decide_eq_true_eq]
        split
        case isTrue => rw [hm, Function.update_self, hold, hhm]
        case isFalse => exact hold
      · have hiff : (p ≤ n % 32) ↔ p < n % 32 := by omega
        simp only [hiff]
        rw [← hmask p hp]
        split
        case isTrue => rw [hm, Function.update_of_ne hpm]
        case isFalse => rfl
    rw [highBitStep]
    simp only [hm, hhm]
    simp only [hm, hhm] at hnew
    split
    case isTrue hwrap =>
      have hdiv : (n + 1) / 32 = n / 32 + 1 := by omega
      have hmod : (n + 1) % 32 = 0 := by omega
      rw [hdiv, hmod]
      refine ⟨rfl, (BitVec.shiftLeft_add _ _ _).symm, ?_⟩
      intro p hp
      rw [if_neg (Nat.not_lt_zero p), Nat.add_zero]
      refine (hnew p hp).trans ?_
      rw [if_pos (by omega)]
    case isFalse hwrap =>
      have hdiv : (n + 1) / 32 = n / 32 := by omega
      have hmod : (n + 1) % 32 = n % 32 + 1 := by omega
      rw [hdiv, hmod]
      refine ⟨rfl, rfl, ?_⟩
      intro p hp
      simp only [Nat.lt_succ_iff]
      exact hnew p hp

theorem highBits_test {q : Nat → Nat} {p : Nat} (hp : p < 256) :
    packHighBits q (p % 32) &&& 1#8 <<< (p / 32) ≠ 0 ↔ 3 < q p := by
  have hrun := (highBits_run q 256).2.2 (p % 32) (Nat.mod_lt _ (by decide))
  have hpos : 32 * (p / 32) + p % 32 = p := Nat.div_add_mod p 32
  rw [packHighBits, hrun]
  refine (bits_test _ (by omega : p / 32 < 8)).trans ?_
  rw [hpos, decide_eq_true_eq]

/-- Two bits at a time are set as one bit after the other. -/
theorem packFifthBits_eq (q : Nat → Nat) (qh : Nat → Byte) (n j : Nat) :
    packFifthBits q qh n j = [2 * n, 2 * n + 1].foldl
      (fun x k => if 15 < q (32 * k + j) then x ||| 1#8 <<< k else x) (qh j) := by
  have htwo : 2#8 <<< (2 * n) = 1#8 <<< (2 * n + 1) := by
    rw [Nat.add_comm, BitVec.shiftLeft_add]
    rfl
  have heven : 64 * n + j = 32 * (2 * n) + j := by omega
  have hodd : 32 * (2 * n) + j + 32 = 32 * (2 * n + 1) + j := by omega
  rw [packFifthBits, htwo, heven, hodd]
  rfl

theorem fifthBits_test {q : Nat → Nat} {p : Nat} (hp : p < 256) :
    packHighOfFive q (p % 32) &&& 1#8 <<< (p / 32) ≠ 0 ↔ 15 < q p := by
  have hbits : packHighOfFive q (p % 32) =
      bits (fun b => 15 < q (32 * b + p % 32)) 8 := by
    have hrange : List.range 4 = [0, 1, 2, 3] := rfl
    rw [packHighOfFive, hrange]
    simp only [List.foldl_cons, List.foldl_nil, packFifthBits_eq, bits, decide_eq_true_eq]
    rfl
  have hpos : 32 * (p / 32) + p % 32 = p := Nat.div_add_mod p 32
  rw [hbits]
  refine (bits_test _ (by omega : p / 32 < 8)).trans ?_
  rw [hpos, decide_eq_true_eq]

/-! ### Scales of six bits -/

theorem scalesQ3K_pack {c : Codes} (hc : ∀ j < 16, ∃ n : Fin 64, c.scaleByte j = byte n)
    (hj : j < 16) :
    scalesQ3K (packScalesQ3K c) j = c.scaleByte j := by
  have hlow : ∀ i < 8, packScalesQ3K c i =
      (c.scaleByte i &&& 0xF#8 ||| (c.scaleByte (i + 8) &&& 0xF#8) <<< 4) := by
    intro i hi
    interval_cases i <;> rfl
  have hhigh : ∀ i < 4, packScalesQ3K c (8 + i) =
      quarters (c.scaleByte i >>> 4) (c.scaleByte (i + 4) >>> 4) (c.scaleByte (i + 8) >>> 4)
        (c.scaleByte (i + 12) >>> 4) := by
    intro i hi
    have hzero (x : Byte) : (0 : Byte) ||| x <<< (2 * 0) = x := by
      rw [Nat.mul_zero, BitVec.shiftLeft_zero]
      exact BitVec.zero_or
    interval_cases i
    · exact congrArg (fun x => x ||| _ ||| _ ||| _) (hzero (c.scaleByte 0 >>> 4))
    · exact congrArg (fun x => x ||| _ ||| _ ||| _) (hzero (c.scaleByte 1 >>> 4))
    · exact congrArg (fun x => x ||| _ ||| _ ||| _) (hzero (c.scaleByte 2 >>> 4))
    · exact congrArg (fun x => x ||| _ ||| _ ||| _) (hzero (c.scaleByte 3 >>> 4))
  choose! n hn using hc
  have hlowField : packScalesQ3K c (j % 8) >>> (4 * (j / 8)) &&& 0xF#8 = c.scaleByte j &&& 0xF#8 := by
    rw [hlow _ (Nat.mod_lt _ (by decide)), hn _ (by omega), hn _ (by omega)]
    obtain ⟨h0, h1⟩ := low_of_halves (byte (n (j % 8))) (byte (n (j % 8 + 8)))
    have hhalf : j / 8 = 0 ∨ j / 8 = 1 := by omega
    rcases hhalf with h | h
    · have hpos : j % 8 = j := by omega
      rw [h, Nat.mul_zero, BitVec.ushiftRight_zero, h0, hpos, hn j hj]
    · have hpos : j % 8 + 8 = j := by omega
      rw [h, Nat.mul_one, h1, hpos, hn j hj]
      exact low_of_low _
  have hhighField : packScalesQ3K c (8 + j % 4) >>>
      (2 * (j / 4)) &&& 3#8 = c.scaleByte j >>> 4 := by
    have hlt (n : Fin 64) : n.val / 16 < 4 := by omega
    rw [hhigh _ (Nat.mod_lt _ (by decide)), hn _ (by omega), hn _ (by omega), hn _ (by omega),
      hn _ (by omega), high_lt, high_lt, high_lt, high_lt, hn j hj, high_lt]
    refine (quarters_field ⟨_, hlt _⟩ ⟨_, hlt _⟩ ⟨_, hlt _⟩ ⟨_, hlt _⟩ ⟨j / 4, by omega⟩).trans ?_
    interval_cases j <;> rfl
  rw [scalesQ3K_eq _ hj, hlowField, hhighField, low_or_high]

theorem getScaleMinK4_pack {c : Codes} (hs : ∀ j < 8, ∃ n : Fin 64, c.scaleByte j = byte n)
    (hm : ∀ j < 8, ∃ n : Fin 64, c.minByte j = byte n) (hj : j < 8) :
    getScaleMinK4 j (packScalesK4 c) = (c.scaleByte j, c.minByte j) := by
  have hfirst : ∀ i < 4, packScalesK4 c i = (c.scaleByte i ||| (c.scaleByte (i + 4) >>> 4) <<< 6) ∧
      packScalesK4 c (i + 4) = (c.minByte i ||| (c.minByte (i + 4) >>> 4) <<< 6) ∧
      packScalesK4 c (i + 8) =
        (c.scaleByte (i + 4) &&& 0xF#8 ||| (c.minByte (i + 4) &&& 0xF#8) <<< 4) := by
    intro i hi
    interval_cases i <;> exact ⟨rfl, rfl, rfl⟩
  rw [getScaleMinK4]
  split
  case isTrue h4 =>
    obtain ⟨h0, h1, -⟩ := hfirst j h4
    obtain ⟨s, hs0⟩ := hs j hj
    obtain ⟨s', hs1⟩ := hs (j + 4) (by omega)
    obtain ⟨m, hm0⟩ := hm j hj
    obtain ⟨m', hm1⟩ := hm (j + 4) (by omega)
    rw [h0, h1, hs0, hs1, hm0, hm1, (six_and_two s s').1, (six_and_two m m').1]
  case isFalse h4 =>
    obtain ⟨i, rfl⟩ : ∃ i, j = i + 4 := ⟨j - 4, by omega⟩
    obtain ⟨h0, h1, h2⟩ := hfirst i (by omega)
    obtain ⟨s, hs0⟩ := hs i (by omega)
    obtain ⟨s', hs1⟩ := hs (i + 4) hj
    obtain ⟨m, hm0⟩ := hm i (by omega)
    obtain ⟨m', hm1⟩ := hm (i + 4) hj
    have hsub : i + 4 - 4 = i := Nat.add_sub_cancel i 4
    obtain ⟨hlow, hhigh⟩ := low_of_halves (byte s') (byte m')
    rw [hsub, Nat.add_assoc, h0, h1, h2, hs0, hs1, hm0, hm1, hlow, hhigh, (six_and_two s s').2,
      (six_and_two m m').2, low_or_high, low_or_high]

/-! ### The formats -/

theorem toInt_byte (h : n < 128) : (byte n).toInt = n := by
  rw [BitVec.toInt_eq_toNat_of_lt (by rw [BitVec.toNat_ofNat]; omega), BitVec.toNat_ofNat]
  omega

theorem toNat_byte (h : n < 256) : (byte n).toNat = n := by
  rw [BitVec.toNat_ofNat]
  omega

/-- A scale code that is not negative, as a byte. -/
theorem Codes.scaleByte_eq (c : Codes) (n : Nat) (h0 : 0 ≤ c.scale j) (h : c.scale j < n) :
    ∃ k : Fin n, c.scaleByte j = byte k ∧ c.scale j = (k : Nat) := by
  obtain ⟨k, hk⟩ := Int.eq_ofNat_of_zero_le h0
  refine ⟨⟨k, by omega⟩, ?_, hk⟩
  rw [scaleByte, hk]
  exact BitVec.ofInt_natCast 8 k

theorem q2K_roundTrip {c : Codes} (d dmin : Half) (hq : ∀ p < 256, c.q p < 4)
    (hs : ∀ j < 16, 0 ≤ c.scale j ∧ c.scale j < 16) (hm : ∀ j < 16, c.min j < 16) :
    dequantizeRowQ2K (packQ2K c d dmin) = (List.range 256).map fun p =>
      ⟨d, dmin, c.scale (p / 16), c.min (p / 16), c.q p⟩ := by
  rw [dequantizeRowQ2K_eq]
  apply List.map_congr_left
  intro p hp
  rw [List.mem_range] at hp
  have hj : p / 16 < 16 := by omega
  obtain ⟨k, hk, hscale⟩ := c.scaleByte_eq 16 (hs _ hj).1 (hs _ hj).2
  have hk16 : k.val < 16 := k.isLt
  have hlow := halves_field k ⟨_, hm _ hj⟩ 0
  have hhigh := halves_field k ⟨_, hm _ hj⟩ 1
  have hq' := hq p hp
  have hm' := hm _ hj
  have hlow' : (packQ2K c d dmin).scales (p / 16) &&& 0xF#8 = byte k := by
    simp only [packQ2K, hk]
    exact hlow
  have hhigh' : (packQ2K c d dmin).scales (p / 16) >>> 4 = byte (c.min (p / 16)) := by
    simp only [packQ2K, hk]
    rw [← shift_four_eq]
    exact hhigh
  have hbits : twoBits (packQ2K c d dmin).qs p = byte (c.q p) := twoBits_packTwoBits hq hp
  rw [hlow', hhigh', hbits, toNat_byte (by omega), toNat_byte (by omega), toInt_byte (by omega),
    hscale]
  rfl

theorem lowOfThree_lt (h : q < 8) : lowOfThree q < 4 := by
  rw [lowOfThree]
  split <;> omega

theorem q3K_roundTrip {c : Codes} (d : Half) (hq : ∀ p < 256, c.q p < 8)
    (hs : ∀ j < 16, 0 ≤ c.scale j ∧ c.scale j < 64) :
    dequantizeRowQ3K (packQ3K c d) = (List.range 256).map fun p =>
      ⟨d, noHalf, c.scale (p / 16) - 32, 0, (c.q p : Int) - 4⟩ := by
  rw [dequantizeRowQ3K_eq]
  apply List.map_congr_left
  intro p hp
  rw [List.mem_range] at hp
  have hj : p / 16 < 16 := by omega
  obtain ⟨k, hk, hscale⟩ := c.scaleByte_eq 64 (hs _ hj).1 (hs _ hj).2
  have hscales : scalesQ3K (packScalesQ3K c) (p / 16) = byte k := by
    rw [← hk]
    apply scalesQ3K_pack ?_ hj
    intro j hj
    obtain ⟨k, hk, -⟩ := c.scaleByte_eq 64 (hs j hj).1 (hs j hj).2
    exact ⟨k, hk⟩
  have hbits : twoBits (packTwoBits fun j => lowOfThree (c.q j)) p = byte (lowOfThree (c.q p)) :=
    twoBits_packTwoBits (fun p hp => lowOfThree_lt (hq p hp)) hp
  have hlow := lowOfThree_lt (hq p hp)
  have hk64 : k.val < 64 := k.isLt
  have hval : (lowOfThree (c.q p) : Int) - (if 3 < c.q p then 0 else 4) = (c.q p : Int) - 4 := by
    rw [lowOfThree]
    split <;> omega
  simp only [packQ3K, hscales, hbits, highBits_test hp]
  rw [toInt_byte (by omega), toInt_byte (by omega), hscale, hval]

/-- Scales and minima of six bits come back with their sub-blocks. -/
theorem scaleMin_roundTrip {c : Codes} (hs : ∀ j < 8, 0 ≤ c.scale j ∧ c.scale j < 64)
    (hm : ∀ j < 8, c.min j < 64) (hj : j < 8) :
    ((getScaleMinK4 j (packScalesK4 c)).1.toNat : Int) = c.scale j ∧
      (getScaleMinK4 j (packScalesK4 c)).2.toNat = c.min j := by
  have hscale (j : Nat) (hj : j < 8) : ∃ n : Fin 64, c.scaleByte j = byte n := by
    obtain ⟨k, hk, -⟩ := c.scaleByte_eq 64 (hs j hj).1 (hs j hj).2
    exact ⟨k, hk⟩
  have hmin (j : Nat) (hj : j < 8) : ∃ n : Fin 64, c.minByte j = byte n := ⟨⟨_, hm j hj⟩, rfl⟩
  obtain ⟨k, hk, hcode⟩ := c.scaleByte_eq 64 (hs j hj).1 (hs j hj).2
  have hk64 : k.val < 64 := k.isLt
  have hm' := hm j hj
  rw [getScaleMinK4_pack hscale hmin hj, hk, hcode]
  exact ⟨by rw [toNat_byte (by omega)], toNat_byte (by omega)⟩

theorem q4K_roundTrip {c : Codes} (d dmin : Half) (hq : ∀ p < 256, c.q p < 16)
    (hs : ∀ j < 8, 0 ≤ c.scale j ∧ c.scale j < 64) (hm : ∀ j < 8, c.min j < 64) :
    dequantizeRowQ4K (packQ4K c d dmin) = (List.range 256).map fun p =>
      ⟨d, dmin, c.scale (p / 32), c.min (p / 32), c.q p⟩ := by
  rw [dequantizeRowQ4K_eq]
  apply List.map_congr_left
  intro p hp
  rw [List.mem_range] at hp
  obtain ⟨hscale, hmin⟩ := scaleMin_roundTrip hs hm (by omega : p / 32 < 8)
  have hq' := hq p hp
  simp only [packQ4K, hscale, hmin, fourBits_packFourBits hq hp]
  rw [toNat_byte (by omega)]

theorem lowOfFive_lt (h : q < 32) : lowOfFive q < 16 := by
  rw [lowOfFive]
  split <;> omega

theorem q5K_roundTrip {c : Codes} (d dmin : Half) (hq : ∀ p < 256, c.q p < 32)
    (hs : ∀ j < 8, 0 ≤ c.scale j ∧ c.scale j < 64) (hm : ∀ j < 8, c.min j < 64) :
    dequantizeRowQ5K (packQ5K c d dmin) = (List.range 256).map fun p =>
      ⟨d, dmin, c.scale (p / 32), c.min (p / 32), c.q p⟩ := by
  rw [dequantizeRowQ5K_eq]
  apply List.map_congr_left
  intro p hp
  rw [List.mem_range] at hp
  obtain ⟨hscale, hmin⟩ := scaleMin_roundTrip hs hm (by omega : p / 32 < 8)
  have hbits : fourBits (packFourBits fun j => lowOfFive (c.q j)) p = byte (lowOfFive (c.q p)) :=
    fourBits_packFourBits (fun p hp => lowOfFive_lt (hq p hp)) hp
  have hlow := lowOfFive_lt (hq p hp)
  have hval : lowOfFive (c.q p) + (if 15 < c.q p then 16 else 0) = c.q p := by
    rw [lowOfFive]
    split <;> omega
  simp only [packQ5K, hscale, hmin, hbits, fifthBits_test hp]
  rw [toNat_byte (by omega), hval]

theorem packLowOfSix_eq (q : Nat → Nat) (h : i < 128) :
    packLowOfSix q i = (byte (q (128 * (i / 64) + i % 64)) &&& 0xF#8 |||
      (byte (q (128 * (i / 64) + (i % 64 + 64))) &&& 0xF#8) <<< 4) := by
  have hloops := flatMap_halves fun j i => byte (q (128 * j + i)) &&& 0xF#8 |||
    (byte (q (128 * j + (i + 64))) &&& 0xF#8) <<< 4
  rw [packLowOfSix]
  exact (congrArg (byteAt · i) hloops).trans (byteAt_map_range _ h)

/-- The low four bits of an element of six. -/
theorem lowOfSix_read (q : Nat → Nat) (hp : p < 256) :
    packLowOfSix q (64 * (p / 128) + (p % 32 + 32 * (p % 128 / 32 % 2))) >>>
      (4 * (p % 128 / 32 / 2)) &&& 0xF#8 = byte (q p) &&& 0xF#8 := by
  have hi : 64 * (p / 128) + (p % 32 + 32 * (p % 128 / 32 % 2)) < 128 := by omega
  have hdiv : (64 * (p / 128) + (p % 32 + 32 * (p % 128 / 32 % 2))) / 64 = p / 128 := by omega
  have hmod : (64 * (p / 128) + (p % 32 + 32 * (p % 128 / 32 % 2))) % 64 = p % 64 := by omega
  have hlow : (byte (q (128 * (p / 128) + p % 64)) &&& 0xF#8 |||
      (byte (q (128 * (p / 128) + (p % 64 + 64))) &&& 0xF#8) <<< 4) &&& 0xF#8 =
      byte (q (128 * (p / 128) + p % 64)) &&& 0xF#8 :=
    (low_of_halves _ _).1
  have hhigh : (byte (q (128 * (p / 128) + p % 64)) &&& 0xF#8 |||
      (byte (q (128 * (p / 128) + (p % 64 + 64))) &&& 0xF#8) <<< 4) >>> 4 =
      byte (q (128 * (p / 128) + (p % 64 + 64))) &&& 0xF#8 :=
    (low_of_halves _ _).2
  rw [packLowOfSix_eq q hi, hdiv, hmod]
  have hhalf : p % 128 / 32 / 2 = 0 ∨ p % 128 / 32 / 2 = 1 := by omega
  rcases hhalf with h | h
  · have hpos : 128 * (p / 128) + p % 64 = p := by omega
    rw [h, Nat.mul_zero, BitVec.ushiftRight_zero]
    rw [hpos] at hlow ⊢
    exact hlow
  · have hpos : 128 * (p / 128) + (p % 64 + 64) = p := by omega
    rw [h, Nat.mul_one]
    rw [hpos] at hhigh ⊢
    exact (congrArg (· &&& 0xF#8) hhigh).trans (low_of_low _)

theorem q6K_roundTrip {c : Codes} (d : Half) (hq : ∀ p < 256, c.q p < 64)
    (hs : ∀ j < 16, -128 ≤ c.scale j ∧ c.scale j < 128) :
    dequantizeRowQ6K (packQ6K c d) = (List.range 256).map fun p =>
      ⟨d, noHalf, c.scale (p / 16), 0, (c.q p : Int) - 32⟩ := by
  rw [dequantizeRowQ6K_eq]
  apply List.map_congr_left
  intro p hp
  rw [List.mem_range] at hp
  have hj : p / 16 < 16 := by omega
  have hscale : (c.scaleByte (p / 16)).toInt = c.scale (p / 16) :=
    BitVec.toInt_ofInt_eq_self (by decide) (hs _ hj).1 (hs _ hj).2
  have hhigh : twoBits (packTwoBits fun j => c.q j >>> 4) p = byte (c.q p >>> 4) := by
    refine twoBits_packTwoBits (fun p hp => ?_) hp
    have hq' := hq p hp
    rw [Nat.shiftRight_eq_div_pow]
    omega
  have hbyte : byte (c.q p >>> 4) = byte (c.q p) >>> 4 := by
    rw [Nat.shiftRight_eq_div_pow]
    exact (high_lt ⟨_, hq p hp⟩).symm
  have hq' := hq p hp
  have helement : elementQ6K (fun i => packLowOfSix c.q (64 * (p / 128) + i))
      (fun i => packTwoBits (fun j => c.q j >>> 4) (32 * (p / 128) + i)) (p % 32)
      (p % 128 / 32) = byte (c.q p) := by
    rw [hbyte, twoBits] at hhigh
    rw [elementQ6K_eq _ _ _ (by omega), lowOfSix_read _ hp, hhigh, low_or_high]
  simp only [packQ6K, hscale, helement]
  rw [toInt_byte (by omega)]

end ActQuant.KQuant
