import Mathlib.Algebra.BigOperators.Fin
import Mathlib.Algebra.Order.BigOperators.Ring.Finset
import Mathlib.Algebra.Order.Chebyshev
import Mathlib.Tactic.FieldSimp
import Mathlib.Tactic.Linarith
import Mathlib.Tactic.LinearCombination

namespace ActQuant.Lib

section Ordered
variable [AddCommMonoid M] [LinearOrder M] [IsOrderedCancelAddMonoid M] {f g : ι → M} {l : List ι}

theorem sum_map_eq_iff_of_le (h : ∀ x ∈ l, f x ≤ g x) :
    (l.map f).sum = (l.map g).sum ↔ ∀ x ∈ l, f x = g x := by
  induction l with
  | nil => simp
  | cons x l ih =>
    have hx := h x (.head _)
    have hxs : ∀ y ∈ l, f y ≤ g y := fun y hy => h y (.tail _ hy)
    have hle : (l.map f).sum ≤ (l.map g).sum := List.sum_le_sum hxs
    simp only [List.map_cons, List.sum_cons, List.forall_mem_cons]
    constructor
    · intro he
      have hhead : f x = g x := by
        by_contra hne
        exact (add_lt_add_of_lt_of_le (lt_of_le_of_ne hx hne) hle).ne he
      rw [hhead, add_right_inj] at he
      exact ⟨hhead, (ih hxs).1 he⟩
    · rintro ⟨hhead, htail⟩
      rw [hhead, (ih hxs).2 htail]

theorem sum_map_eq_zero_iff (h : ∀ x ∈ l, 0 ≤ f x) :
    (l.map f).sum = 0 ↔ ∀ x ∈ l, f x = 0 := by
  have hzero : (l.map fun _ => (0 : M)).sum = 0 := by simp
  have hiff := sum_map_eq_iff_of_le h
  rw [hzero] at hiff
  rw [eq_comm, hiff]
  simp only [eq_comm]

end Ordered

section Square
variable [Field K] [LinearOrder K] [IsStrictOrderedRing K] {f : ι → K} {l : List ι}

theorem sum_sq_nonneg : 0 ≤ (l.map fun x => f x ^ 2).sum := by
  apply List.sum_nonneg
  intro y hy
  obtain ⟨x, _, rfl⟩ := List.mem_map.1 hy
  exact sq_nonneg _

theorem sum_sq_eq_zero_iff : (l.map fun x => f x ^ 2).sum = 0 ↔ ∀ x ∈ l, f x = 0 := by
  rw [sum_map_eq_zero_iff fun x _ => sq_nonneg (f x)]
  simp only [sq_eq_zero_iff]

theorem sq_sum_le_length_mul : (l.map f).sum ^ 2 ≤ l.length * (l.map fun x => f x ^ 2).sum := by
  have hle := sq_sum_le_card_mul_sum_sq (s := Finset.univ) (f := fun i : Fin l.length => f l[i.1])
  simpa only [Fin.sum_univ_fun_getElem l f, Fin.sum_univ_fun_getElem l fun x => f x ^ 2,
    Finset.card_univ, Fintype.card_fin] using hle

theorem sq_mean_le : ((l.map f).sum / l.length) ^ 2 ≤
    (l.map fun x => f x ^ 2).sum / l.length := by
  rcases Nat.eq_zero_or_pos l.length with h | h
  · simp [h]
  · have hpos : (0 : K) < l.length := Nat.cast_pos.2 h
    rw [div_pow, div_le_div_iff₀ (pow_pos hpos 2) hpos]
    have hle := mul_le_mul_of_nonneg_right (sq_sum_le_length_mul (f := f) (l := l)) hpos.le
    linarith

theorem sq_mean_le_sum_sq : ((l.map f).sum / l.length) ^ 2 ≤ (l.map fun x => f x ^ 2).sum := by
  refine sq_mean_le.trans ?_
  rcases Nat.eq_zero_or_pos l.length with h | h
  · rw [h, Nat.cast_zero, div_zero]
    exact sum_sq_nonneg
  · exact div_le_self sum_sq_nonneg (Nat.one_le_cast.2 h)

theorem sq_mean_eq_sum_sq_iff :
    ((l.map f).sum / l.length) ^ 2 = (l.map fun x => f x ^ 2).sum ↔
      l.length ≤ 1 ∨ ∀ x ∈ l, f x = 0 := by
  constructor
  · intro he
    by_contra hne
    rw [not_or, not_le] at hne
    obtain ⟨hlen, hne⟩ := hne
    have hpos : 0 < (l.map fun x => f x ^ 2).sum :=
      lt_of_le_of_ne sum_sq_nonneg fun h => hne (sum_sq_eq_zero_iff.1 h.symm)
    have hlt := div_lt_self hpos (Nat.one_lt_cast.2 hlen)
    exact (sq_mean_le.trans_lt hlt).ne he
  · rintro (hlen | hzero)
    · match l, hlen with
      | [], _ => simp
      | [x], _ => simp
    · have hmean : (l.map f).sum = 0 := by
        rw [List.map_congr_left hzero]
        simp
      rw [hmean, zero_div, sum_sq_eq_zero_iff.2 hzero]
      simp

end Square

variable {K : Type*} [Field K]

def mean (xs : List K) : K := xs.sum / xs.length

def variance (xs : List K) : K := mean (xs.map fun x => (x - mean xs) ^ 2)

/-- What is used of the square root: it keeps zero and stays positive on positive numbers. -/
structure SquareRoot (K : Type*) [Field K] [LinearOrder K] where
  sqrt : K → K
  sqrt_zero : sqrt 0 = 0
  sqrt_pos : ∀ {x}, 0 < x → 0 < sqrt x

variable [LinearOrder K] {xs ys : List K} {x y eps : K}

theorem SquareRoot.nonneg (r : SquareRoot K) (hx : 0 ≤ x) : 0 ≤ r.sqrt x := by
  rcases hx.eq_or_lt with rfl | hx
  · exact r.sqrt_zero.ge
  · exact (r.sqrt_pos hx).le

def std (r : SquareRoot K) (xs : List K) : K := r.sqrt (variance xs)

/-- `1e-8`, as it is added to a deviation before dividing by it. -/
def stdEps : K := 1 / 10 ^ 8

variable [IsStrictOrderedRing K]

theorem stdEps_pos : (0 : K) < stdEps := by
  rw [stdEps]
  positivity

theorem mean_replicate (hn : 0 < n) (y : K) : mean (List.replicate n y) = y := by
  have hne : (n : K) ≠ 0 := Nat.cast_ne_zero.2 hn.ne'
  rw [mean, List.sum_replicate, List.length_replicate, nsmul_eq_mul, mul_div_cancel_left₀ _ hne]

theorem mean_of_const (hne : xs ≠ []) (h : ∀ x ∈ xs, x = y) : mean xs = y := by
  rw [List.eq_replicate_of_mem h]
  exact mean_replicate (List.length_pos_of_ne_nil hne) y

theorem variance_nonneg (xs : List K) : 0 ≤ variance xs :=
  div_nonneg sum_sq_nonneg (Nat.cast_nonneg _)

theorem std_nonneg (r : SquareRoot K) (xs : List K) : 0 ≤ std r xs := r.nonneg (variance_nonneg xs)

theorem variance_of_const (h : ∀ x ∈ xs, x = y) : variance xs = 0 := by
  rcases eq_or_ne xs [] with rfl | hne
  · simp [variance, mean]
  · have hsq : (xs.map fun x => (x - mean xs) ^ 2).sum = 0 := by
      rw [sum_sq_eq_zero_iff]
      intro x hx
      rw [mean_of_const hne h, h x hx, sub_self]
    rw [variance, mean, hsq, zero_div]

theorem std_of_const (r : SquareRoot K) (h : ∀ x ∈ xs, x = y) : std r xs = 0 := by
  rw [std, variance_of_const h, r.sqrt_zero]

theorem variance_pos (hx : x ∈ xs) (hy : y ∈ xs) (hne : x ≠ y) : 0 < variance xs := by
  apply lt_of_le_of_ne (variance_nonneg xs)
  intro hzero
  have hlen : (xs.length : K) ≠ 0 :=
    Nat.cast_ne_zero.2 (List.length_pos_of_mem hx).ne'
  rw [variance, mean, List.length_map, eq_comm, div_eq_zero_iff, or_iff_left hlen,
    sum_sq_eq_zero_iff] at hzero
  exact hne ((sub_eq_zero.1 (hzero x hx)).trans (sub_eq_zero.1 (hzero y hy)).symm)

theorem std_pos (r : SquareRoot K) (hx : x ∈ xs) (hy : y ∈ xs) (hne : x ≠ y) : 0 < std r xs :=
  r.sqrt_pos (variance_pos hx hy hne)

/-- The deviation from a mean in units of a deviation, kept from dividing by zero. -/
def standardScore (r : SquareRoot K) (eps : K) (xs : List K) (x : K) : K :=
  (x - mean xs) / (std r xs + eps)

/-- Scores against a part are those against the whole only in two cases. -/
theorem standardScore_agree_iff (r : SquareRoot K) (heps : 0 < eps) (hne : xs ≠ []) :
    (∀ x ∈ xs, standardScore r eps xs x = standardScore r eps ys x) ↔
      (mean xs = mean ys ∧ std r xs = std r ys) ∨ ∀ x ∈ xs, x = mean ys := by
  have hxs : std r xs + eps ≠ 0 := (add_pos_of_nonneg_of_pos (std_nonneg r xs) heps).ne'
  have hys : std r ys + eps ≠ 0 := (add_pos_of_nonneg_of_pos (std_nonneg r ys) heps).ne'
  simp only [standardScore]
  constructor
  · intro h
    obtain ⟨x, hx⟩ := List.exists_mem_of_ne_nil xs hne
    by_cases hconst : ∀ y ∈ xs, y = x
    · right
      have hscore := h x hx
      rw [mean_of_const hne hconst, sub_self, zero_div, eq_comm, div_eq_zero_iff,
        or_iff_left hys, sub_eq_zero] at hscore
      intro y hy
      rw [hconst y hy, hscore]
    · left
      push Not at hconst
      obtain ⟨y, hy, hxy⟩ := hconst
      have hx' := h x hx
      have hy' := h y hy
      rw [div_eq_div_iff hxs hys] at hx' hy'
      have hscale : std r xs = std r ys := by
        have hdiff : (y - x) * (std r ys + eps) = (y - x) * (std r xs + eps) := by
          linear_combination hy' - hx'
        have hcancel := mul_left_cancel₀ (sub_ne_zero.2 hxy) hdiff
        linear_combination -hcancel
      refine ⟨?_, hscale⟩
      rw [hscale] at hx'
      have hcancel := mul_right_cancel₀ hys hx'
      linear_combination -hcancel
  · rintro (⟨hmean, hstd⟩ | hconst) x hx
    · rw [hmean, hstd]
    · rw [mean_of_const hne hconst, hconst x hx, sub_self, zero_div, zero_div]

/-- The square root where it is rational; elsewhere only the sign is kept. -/
def ratSqrt : SquareRoot ℚ where
  sqrt x := if (Nat.sqrt x.num.toNat : ℚ) ^ 2 = x.num ∧ (Nat.sqrt x.den : ℚ) ^ 2 = x.den then
    Nat.sqrt x.num.toNat / Nat.sqrt x.den else x
  sqrt_zero := by decide +kernel
  sqrt_pos {x} hx := by
    split_ifs with h
    · have hnum : (0 : ℚ) < x.num := Int.cast_pos.2 (Rat.num_pos.2 hx)
      have hden : (0 : ℚ) < x.den := Nat.cast_pos.2 x.den_pos
      rw [← h.1, sq_pos_iff, Nat.cast_ne_zero] at hnum
      rw [← h.2, sq_pos_iff, Nat.cast_ne_zero] at hden
      exact div_pos (Nat.cast_pos.2 (Nat.pos_of_ne_zero hnum))
        (Nat.cast_pos.2 (Nat.pos_of_ne_zero hden))
    · exact hx


/-! Weighted sums over pairs, and the line through weighted points. -/

section Identities
variable {ι K : Type} [CommRing K] (s : Finset ι) (w l c d : ι → K)

/-- A difference of products of weighted sums is a sum over pairs. -/
theorem sum_pairs :
    2 * ((∑ i ∈ s, w i * c i) * ∑ i ∈ s, w i * l i * d i) -
        2 * ((∑ i ∈ s, w i * d i) * ∑ i ∈ s, w i * l i * c i) =
      ∑ p ∈ s ×ˢ s, w p.1 * w p.2 * ((l p.2 - l p.1) * (c p.1 * d p.2 - c p.2 * d p.1)) := by
  have hpairs (f g : ι → K) : ∑ p ∈ s ×ˢ s, f p.1 * g p.2 = (∑ i ∈ s, f i) * ∑ i ∈ s, g i := by
    rw [Finset.sum_product, Finset.sum_mul_sum]
  have hsplit (p : ι × ι) :
      w p.1 * w p.2 * ((l p.2 - l p.1) * (c p.1 * d p.2 - c p.2 * d p.1)) =
        w p.1 * c p.1 * (w p.2 * l p.2 * d p.2) - w p.1 * d p.1 * (w p.2 * l p.2 * c p.2) -
          (w p.1 * l p.1 * c p.1 * (w p.2 * d p.2) -
            w p.1 * l p.1 * d p.1 * (w p.2 * c p.2)) := by
    ring
  rw [Finset.sum_congr rfl fun p _ => hsplit p, Finset.sum_sub_distrib, Finset.sum_sub_distrib,
    Finset.sum_sub_distrib, hpairs (fun i => w i * c i) fun i => w i * l i * d i,
    hpairs (fun i => w i * d i) fun i => w i * l i * c i,
    hpairs (fun i => w i * l i * c i) fun i => w i * d i,
    hpairs (fun i => w i * l i * d i) fun i => w i * c i]
  ring

/-- The spread of the codes, from the pairs. -/
theorem spread_eq :
    2 * ((∑ i ∈ s, w i) * (∑ i ∈ s, w i * l i * l i) - (∑ i ∈ s, w i * l i) * ∑ i ∈ s, w i * l i) =
      ∑ p ∈ s ×ˢ s, w p.1 * w p.2 * ((l p.2 - l p.1) * (l p.2 - l p.1)) := by
  have h := sum_pairs s w l (fun _ => 1) l
  simp only [mul_one, one_mul] at h
  rw [mul_sub, h]

end Identities

section Line
variable {ι K : Type} [Field K] [LinearOrder K] [IsStrictOrderedRing K]
  {s : Finset ι} {w l x : ι → K}

/-- Codes that grow with the values have a slope that is not negative. -/
theorem covariance_nonneg (hw : ∀ i ∈ s, 0 ≤ w i)
    (hmono : ∀ i ∈ s, ∀ j ∈ s, x i ≤ x j → l i ≤ l j) :
    (∑ i ∈ s, w i * x i) * (∑ i ∈ s, w i * l i) ≤
      (∑ i ∈ s, w i) * ∑ i ∈ s, w i * l i * x i := by
  have h := sum_pairs s w l (fun _ => 1) x
  simp only [mul_one, one_mul] at h
  have hpos : 0 ≤ ∑ p ∈ s ×ˢ s, w p.1 * w p.2 * ((l p.2 - l p.1) * (x p.2 - x p.1)) := by
    refine Finset.sum_nonneg fun p hp => ?_
    obtain ⟨h1, h2⟩ := Finset.mem_product.1 hp
    refine mul_nonneg (mul_nonneg (hw _ h1) (hw _ h2)) ?_
    rcases le_total (x p.1) (x p.2) with hle | hle
    · exact mul_nonneg (sub_nonneg.2 (hmono _ h1 _ h2 hle)) (sub_nonneg.2 hle)
    · exact mul_nonneg_of_nonpos_of_nonpos (sub_nonpos.2 (hmono _ h2 _ h1 hle))
        (sub_nonpos.2 hle)
  linarith

/-- Where the codes differ, the line falls behind the greatest value at code 0. -/
theorem intercept_lt {m : K} (hw : ∀ i ∈ s, 0 ≤ w i) (hl : ∀ i ∈ s, 0 ≤ l i)
    (hm : ∀ i ∈ s, x i ≤ m) (hmono : ∀ i ∈ s, ∀ j ∈ s, x i ≤ x j → l i ≤ l j)
    (hspread : (∑ i ∈ s, w i * l i) * (∑ i ∈ s, w i * l i) <
      (∑ i ∈ s, w i) * ∑ i ∈ s, w i * l i * l i) :
    (∑ i ∈ s, w i * l i * l i) * (∑ i ∈ s, w i * x i) -
        (∑ i ∈ s, w i * l i) * (∑ i ∈ s, w i * l i * x i) <
      m * ((∑ i ∈ s, w i) * (∑ i ∈ s, w i * l i * l i) -
        (∑ i ∈ s, w i * l i) * ∑ i ∈ s, w i * l i) := by
  have hterm : ∀ i ∈ s, ∀ j ∈ s, l i < l j →
      0 < (l j - l i) * ((m - x i) * l j - (m - x j) * l i) := by
    intro i hi j hj hlt
    have hx : x i < x j := lt_of_not_ge fun hge => absurd (hmono j hj i hi hge) (not_le.2 hlt)
    have hj' := hm j hj
    have hi' := hl i hi
    refine mul_pos (sub_pos.2 hlt) ?_
    calc 0 < (m - x i) * (l j - l i) := mul_pos (by linarith) (sub_pos.2 hlt)
      _ ≤ (m - x i) * (l j - l i) + (x j - x i) * l i :=
        le_add_of_nonneg_right (mul_nonneg (by linarith) hi')
      _ = (m - x i) * l j - (m - x j) * l i := by ring
  have hpair : ∀ p ∈ s ×ˢ s, 0 ≤ w p.1 * w p.2 *
      ((l p.2 - l p.1) * ((m - x p.1) * l p.2 - (m - x p.2) * l p.1)) ∧
      (0 < w p.1 * w p.2 * ((l p.2 - l p.1) * (l p.2 - l p.1)) → 0 < w p.1 * w p.2 *
        ((l p.2 - l p.1) * ((m - x p.1) * l p.2 - (m - x p.2) * l p.1))) := by
    intro p hp
    obtain ⟨h1, h2⟩ := Finset.mem_product.1 hp
    have hww := mul_nonneg (hw _ h1) (hw _ h2)
    rcases lt_trichotomy (l p.1) (l p.2) with hlt | heq | hlt
    · have hpos := hterm _ h1 _ h2 hlt
      refine ⟨mul_nonneg hww hpos.le, fun h => mul_pos ?_ hpos⟩
      exact lt_of_le_of_ne hww fun h0 => by rw [← h0, zero_mul] at h; exact lt_irrefl _ h
    · rw [heq, sub_self, zero_mul, zero_mul, mul_zero]
      exact ⟨le_refl _, fun h => h⟩
    · have hpos := hterm _ h2 _ h1 hlt
      have hswap : (l p.1 - l p.2) * ((m - x p.2) * l p.1 - (m - x p.1) * l p.2) =
          (l p.2 - l p.1) * ((m - x p.1) * l p.2 - (m - x p.2) * l p.1) := by ring
      rw [hswap] at hpos
      refine ⟨mul_nonneg hww hpos.le, fun h => mul_pos ?_ hpos⟩
      exact lt_of_le_of_ne hww fun h0 => by rw [← h0, zero_mul] at h; exact lt_irrefl _ h
  have hsum : 0 < ∑ p ∈ s ×ˢ s, w p.1 * w p.2 *
      ((l p.2 - l p.1) * ((m - x p.1) * l p.2 - (m - x p.2) * l p.1)) := by
    have hD : 0 < ∑ p ∈ s ×ˢ s, w p.1 * w p.2 * ((l p.2 - l p.1) * (l p.2 - l p.1)) := by
      rw [← spread_eq]
      linarith
    obtain ⟨p, hp, hpos⟩ := Finset.exists_lt_of_sum_lt
      (lt_of_eq_of_lt Finset.sum_const_zero hD)
    exact Finset.sum_pos' (fun q hq => (hpair q hq).1) ⟨p, hp, (hpair p hp).2 hpos⟩
  have hT := sum_pairs s w l (fun i => m - x i) l
  have hy : ∑ i ∈ s, w i * (m - x i) = m * (∑ i ∈ s, w i) - ∑ i ∈ s, w i * x i := by
    rw [Finset.mul_sum, ← Finset.sum_sub_distrib]
    exact Finset.sum_congr rfl fun i _ => by ring
  have hly : ∑ i ∈ s, w i * l i * (m - x i) =
      m * (∑ i ∈ s, w i * l i) - ∑ i ∈ s, w i * l i * x i := by
    rw [Finset.mul_sum, ← Finset.sum_sub_distrib]
    exact Finset.sum_congr rfl fun i _ => by ring
  rw [← hT, hy, hly] at hsum
  linarith

end Line

end ActQuant.Lib
