import Mathlib.Algebra.Order.Ring.Nat
import Mathlib.Data.List.Basic
import Mathlib.Data.Nat.Bitwise

namespace ActQuant.Lib

/-! Single bits of words. -/

/-- A number has no bits above its width. -/
theorem ofNat_above (hn : n < 2 ^ w) (hi : i < v) (hw : w ≤ i) : (BitVec.ofNat v n)[i] = false := by
  rw [← BitVec.getLsbD_eq_getElem, BitVec.getLsbD_ofNat,
    Nat.testBit_lt_two_pow (lt_of_lt_of_le hn (Nat.pow_le_pow_right Nat.two_pos hw)), Bool.and_false]

/-- A mask of one bit tests it. -/
theorem and_bit_ne_zero (x : BitVec w) (hk : k < w) :
    x &&& 1#w <<< k ≠ 0 ↔ x.getLsbD k = true := by
  have hbit : (BitVec.twoPow w k).getLsbD k = true := by
    rw [BitVec.getLsbD_twoPow, decide_eq_true hk, decide_eq_true rfl, Bool.and_self]
  rw [← BitVec.twoPow_eq, BitVec.and_twoPow]
  cases x.getLsbD k
  case false =>
    exact iff_of_false (fun h => h rfl) Bool.false_ne_true
  case true =>
    refine iff_of_true (fun h => ?_) rfl
    change BitVec.twoPow w k = 0#w at h
    rw [h, BitVec.getLsbD_zero] at hbit
    exact Bool.false_ne_true hbit

/-- The lowest bit after a shift. -/
theorem shift_and_one (x : BitVec w) (hk : k < w) :
    x >>> k &&& 1#w = if x &&& 1#w <<< k ≠ 0 then 1#w else 0#w := by
  rw [BitVec.and_one_eq_setWidth_ofBool_getLsbD, BitVec.getLsbD_ushiftRight, Nat.add_zero]
  simp only [and_bit_ne_zero x hk]
  cases x.getLsbD k
  case false =>
    exact BitVec.eq_of_toNat_eq (by simp)
  case true =>
    exact BitVec.eq_of_toNat_eq (by simp)

/-- The little-endian bytes of a number, cut off at a width. -/
def leBytes : Nat → Nat → List UInt8
  | 0, _ => []
  | width + 1, n => n.toUInt8 :: leBytes width (n / 256)

/-- The number that little-endian bytes stand for. -/
def ofLe : List UInt8 → Nat
  | [] => 0
  | b :: bs => b.toNat + 256 * ofLe bs

@[simp] theorem length_leBytes (width n : Nat) : (leBytes width n).length = width := by
  induction width generalizing n with
  | zero => rfl
  | succ width ih => rw [leBytes, List.length_cons, ih]

theorem ofLe_lt (bs : List UInt8) : ofLe bs < 256 ^ bs.length := by
  induction bs with
  | nil => exact Nat.one_pos
  | cons b bs ih =>
    have hb : b.toNat < 256 := b.toNat_lt
    rw [ofLe, List.length_cons, Nat.pow_succ]
    omega

theorem ofLe_leBytes (h : n < 256 ^ width) : ofLe (leBytes width n) = n := by
  induction width generalizing n with
  | zero => exact (Nat.lt_one_iff.1 h).symm
  | succ width ih =>
    have hdiv : n / 256 < 256 ^ width := by
      rw [Nat.pow_succ] at h
      exact Nat.div_lt_of_lt_mul (by rwa [Nat.mul_comm])
    have hlow : n.toUInt8.toNat = n % 256 := UInt8.toNat_ofNat'
    rw [leBytes, ofLe, ih hdiv, hlow, Nat.mod_add_div]

theorem leBytes_ofLe (bs : List UInt8) : leBytes bs.length (ofLe bs) = bs := by
  induction bs with
  | nil => rfl
  | cons b bs ih =>
    have hb : b.toNat < 256 := b.toNat_lt
    have hlow : (b.toNat + 256 * ofLe bs).toUInt8 = b := by
      apply UInt8.toNat.inj
      rw [Nat.toUInt8, UInt8.toNat_ofNat', Nat.add_mul_mod_self_left, Nat.mod_eq_of_lt hb]
    have hhigh : (b.toNat + 256 * ofLe bs) / 256 = ofLe bs := by omega
    rw [ofLe, List.length_cons, leBytes, hlow, hhigh, ih]

end ActQuant.Lib
