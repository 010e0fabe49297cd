import ActQuant.Hsic.Samples

namespace ActQuant.Hsic.Linear
open Matrix

variable {n p q : Nat} {R : Type} [Field R]

/-- `center` of `hsic_utils`, on the samples and not on a kernel: each feature loses its mean. -/
def center (X : Matrix (Fin n) (Fin p) R) : Matrix (Fin n) (Fin p) R :=
  fun i j => X i j - (∑ k, X k j) / n

/-- `hsic_linear`, where `C * C` is the product of the entries. -/
def hsicLinear (Xc : Matrix (Fin n) (Fin p) R) (Zc : Matrix (Fin n) (Fin q) R) : R :=
  let C := Xcᵀ * Zc
  (∑ i, ∑ j, C i j * C i j) / ((n : R) - 1) ^ 2

/-- The linear kernel of the samples. -/
def kernel (X : Matrix (Fin n) (Fin p) R) : Matrix (Fin n) (Fin n) R := X * Xᵀ

theorem center_eq_mul (X : Matrix (Fin n) (Fin p) R) : center X = centeringMatrix n R * X := by
  ext i j
  simp only [center, centeringMatrix, mul_apply, sub_mul, ite_mul, one_mul, zero_mul,
    Finset.sum_sub_distrib, Finset.sum_ite_eq, Finset.mem_univ, if_true]
  rw [← Finset.mul_sum, one_div, div_eq_inv_mul]

theorem centeringMatrix_transpose : (centeringMatrix n R)ᵀ = centeringMatrix n R := by
  ext i j
  simp only [transpose_apply, centeringMatrix, eq_comm]

/-- A column that was centred has the mean zero. -/
theorem sum_center [CharZero R] (hn : n ≠ 0) (X : Matrix (Fin n) (Fin p) R) (j : Fin p) :
    ∑ i, center X i j = 0 := by
  have hcast : (n : R) ≠ 0 := Nat.cast_ne_zero.2 hn
  simp only [center, Finset.sum_sub_distrib, Finset.sum_const, Finset.card_univ, Fintype.card_fin,
    nsmul_eq_mul]
  rw [mul_div_cancel₀ _ hcast, sub_self]

theorem center_center [CharZero R] (hn : n ≠ 0) (X : Matrix (Fin n) (Fin p) R) :
    center (center X) = center X := by
  ext i j
  rw [center, sum_center hn, zero_div, sub_zero]

/-- Centring twice is centring once. -/
theorem centeringMatrix_idem [CharZero R] (hn : n ≠ 0) :
    centeringMatrix n R * centeringMatrix n R = centeringMatrix n R := by
  have h := center_center (R := R) hn (1 : Matrix (Fin n) (Fin n) R)
  rwa [center_eq_mul (center 1), center_eq_mul, Matrix.mul_one] at h

/-- The Frobenius norm of the cross product is a trace over the kernels. -/
theorem frobenius_eq_trace (X : Matrix (Fin n) (Fin p) R) (Z : Matrix (Fin n) (Fin q) R) :
    ∑ i, ∑ j, (Xᵀ * Z) i j * (Xᵀ * Z) i j = trace (kernel X * kernel Z) := by
  have hsum : ∑ i, ∑ j, (Xᵀ * Z) i j * (Xᵀ * Z) i j = trace (Xᵀ * Z * (Xᵀ * Z)ᵀ) := rfl
  calc ∑ i, ∑ j, (Xᵀ * Z) i j * (Xᵀ * Z) i j
      = trace (Xᵀ * Z * (Zᵀ * X)) := by rw [hsum, transpose_mul, transpose_transpose]
    _ = trace (Xᵀ * (kernel Z * X)) := by
        rw [kernel, Matrix.mul_assoc, Matrix.mul_assoc Z]
    _ = trace (kernel Z * X * Xᵀ) := trace_mul_comm _ _
    _ = trace (kernel X * kernel Z) := by
        rw [Matrix.mul_assoc, ← kernel, trace_mul_comm]

/-- The kernel of centred samples is the kernel centred on both sides. -/
theorem kernel_center (X : Matrix (Fin n) (Fin p) R) :
    kernel (center X) = centeringMatrix n R * kernel X * centeringMatrix n R := by
  rw [kernel, center_eq_mul, transpose_mul, centeringMatrix_transpose, kernel]
  simp only [Matrix.mul_assoc]

theorem trace_kernels_center [CharZero R] (hn : n ≠ 0) (X : Matrix (Fin n) (Fin p) R)
    (Z : Matrix (Fin n) (Fin q) R) :
    trace (kernel (center X) * kernel (center Z)) =
      trace (kernel X * centeringMatrix n R * kernel Z * centeringMatrix n R) := by
  set H := centeringMatrix n R with hH
  have hidem : H * H = H := centeringMatrix_idem hn
  calc trace (kernel (center X) * kernel (center Z))
      = trace (H * kernel X * H * (H * kernel Z * H)) := by rw [kernel_center, kernel_center]
    _ = trace (H * (kernel X * (H * H) * kernel Z * H)) := by simp only [Matrix.mul_assoc]
    _ = trace (kernel X * H * kernel Z * H * H) := by rw [trace_mul_comm, hidem]
    _ = trace (kernel X * H * kernel Z * H) := by
        rw [Matrix.mul_assoc (kernel X * H * kernel Z), hidem]

/-- The shortcut for linear kernels is the statistic of the two kernels. -/
theorem hsicLinear_eq_hsic [CharZero R] (hn : 2 ≤ n) (X : Matrix (Fin n) (Fin p) R)
    (Z : Matrix (Fin n) (Fin q) R) :
    hsicLinear (center X) (center Z) =
        trace (kernel X * centeringMatrix n R * kernel Z * centeringMatrix n R) /
          ((n : R) - 1) ^ 2 ∧
      hsicLinear (center X) (center Z) = hsic (kernel X) (kernel Z) (centeringMatrix n R) := by
  have htrace : hsicLinear (center X) (center Z) =
      trace (kernel X * centeringMatrix n R * kernel Z * centeringMatrix n R) /
        ((n : R) - 1) ^ 2 := by
    rw [hsicLinear, frobenius_eq_trace, trace_kernels_center (Nat.ne_of_gt (Nat.zero_lt_of_lt hn))]
  exact ⟨htrace, by rw [htrace, hsic_eq_trace]⟩

theorem hsicLinear_eq_hsic_three :
    let X : Matrix (Fin 3) (Fin 2) ℚ := fun i j => i + j
    let Z : Matrix (Fin 3) (Fin 1) ℚ := fun i _ => i * i
    let H := centeringMatrix 3 ℚ
    hsicLinear (center X) (center Z) =
        trace (kernel X * H * kernel Z * H) / (((3 : Nat) : ℚ) - 1) ^ 2 ∧
      hsicLinear (center X) (center Z) = hsic (kernel X) (kernel Z) H :=
  hsicLinear_eq_hsic (Nat.le_succ 2) _ _

end ActQuant.Hsic.Linear
