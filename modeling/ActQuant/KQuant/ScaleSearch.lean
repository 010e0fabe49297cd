import ActQuant.Lib.Lists
import ActQuant.Lib.Sums
import Mathlib.Data.Int.ConditionallyCompleteOrder
import Mathlib.Data.Rat.Floor

namespace ActQuant.KQuant
open ActQuant.Lib

/-! The weighted search for the scale and the minimum of a block. -/

/-- `nearest_int`: a monotone rounding to a nearest integer. -/
structure Rounding where
  nearestInt : ℚ → ℤ
  mono : Monotone nearestInt
  near : ∀ q, |q - nearestInt q| ≤ 1 / 2

/-- A division, which a zero divisor ends. -/
def divide (a b : ℚ) : Option ℚ := if b = 0 then none else some (a / b)

/-- The conversion to `uint8_t`. -/
def toUInt8 (z : ℤ) : ℤ := z % 256

def clampCode (nmax l : ℤ) : ℤ := max 0 (min nmax l)

def lowest (x : Fin (n + 1) → ℚ) : ℚ :=
  (List.finRange (n + 1)).foldl (fun min i => if x i < min then x i else min) (x 0)

def greatest (x : Fin (n + 1) → ℚ) : ℚ :=
  (List.finRange (n + 1)).foldl (fun max i => if max < x i then x i else max) (x 0)

/-- Where there are no weights, a value weighs its square. -/
def weightOf (x : Fin n → ℚ) (weights : Option (Fin n → ℚ)) (i : Fin n) : ℚ :=
  match weights with
  | some weights => weights i
  | none => x i * x i

/-- The weighted error of codes with a scale and a minimum. -/
def weightedError (useMad : Bool) (x w : Fin n → ℚ) (scale min : ℚ) (L : Fin n → ℤ) : ℚ :=
  ∑ i, w i *
    let diff := scale * L i + min - x i
    if useMad then |diff| else diff * diff

/-- The codes of a uniform grid. -/
def gridCodes (R : Rounding) (nmax : ℤ) (x : Fin n → ℚ) (iscale min : ℚ) (i : Fin n) : ℤ :=
  clampCode nmax (R.nearestInt (iscale * (x i - min)))

/-- What the search has found so far. -/
structure Fit (n : Nat) where
  scale : ℚ
  min : ℚ
  bestMad : ℚ
  L : Fin n → ℤ

/-- One more grid: its codes, the line through them, and a comparison with the best so far. -/
def tryGrid (R : Rounding) (nmax : ℤ) (useMad : Bool) (x w : Fin n → ℚ) (max shift : ℚ)
    (fit : Fit n) : Option (Fit n) := do
  let iscale ← divide shift (max - fit.min)
  let l := gridCodes R nmax x iscale fit.min
  let Laux := fun i => toUInt8 (l i)
  let sumL := ∑ i, w i * l i
  let sumL2 := ∑ i, w i * l i * l i
  let sumXl := ∑ i, w i * l i * x i
  let D := (∑ i, w i) * sumL2 - sumL * sumL
  if 0 < D then
    let scale ← divide ((∑ i, w i) * sumXl - (∑ i, w i * x i) * sumL) D
    let min ← divide (sumL2 * (∑ i, w i * x i) - sumL * sumXl) D
    let scale ← if 0 < min then divide sumXl sumL2 else some scale
    let min := if 0 < min then 0 else min
    let mad := weightedError useMad x w scale min Laux
    if mad < fit.bestMad then some ⟨scale, min, mad, Laux⟩ else some fit
  else some fit

/-- A scale, what is subtracted, and codes. -/
structure Quants (n : Nat) where
  scale : ℚ
  theMin : ℚ
  L : Fin n → ℤ

/-- `make_qkx3_quants`. -/
def makeQkx3Quants (R : Rounding) (nmax : ℤ) (x : Fin (n + 1) → ℚ)
    (weights : Option (Fin (n + 1) → ℚ)) (rmin rdelta : ℚ) (nstep : Nat) (useMad : Bool) :
    Option (Quants (n + 1)) :=
  let w := weightOf x weights
  let max := greatest x
  let min := if 0 < lowest x then 0 else lowest x
  if max ≤ min then some ⟨0, -min, fun _ => 0⟩
  else do
    let iscale ← divide nmax (max - min)
    let scale ← divide 1 iscale
    let L := fun i => toUInt8 (gridCodes R nmax x iscale min i)
    let fit : Fit (n + 1) := ⟨scale, min, weightedError useMad x w scale min L, L⟩
    if nstep < 1 then some ⟨fit.scale, -fit.min, fit.L⟩
    else
      let fit ← (List.range (nstep + 1)).foldlM
        (fun fit (is : Nat) => tryGrid R nmax useMad x w max (rmin + rdelta * is + nmax) fit) fit
      some ⟨fit.scale, -fit.min, fit.L⟩

/-! ### Rounding and codes -/

theorem Rounding.nearestInt_intCast (R : Rounding) (z : ℤ) : R.nearestInt z = z := by
  have hnear := R.near z
  rw [← Int.cast_sub, ← Int.cast_abs] at hnear
  have hlt : |z - R.nearestInt z| < 1 := by
    have hhalf : ((|z - R.nearestInt z| : ℤ) : ℚ) < ((1 : ℤ) : ℚ) := lt_of_le_of_lt hnear (by norm_num)
    exact Int.cast_lt.1 hhalf
  have hzero := Int.abs_lt_one_iff.1 hlt
  omega

theorem Rounding.nonneg (R : Rounding) {q : ℚ} (h : 0 ≤ q) : 0 ≤ R.nearestInt q := by
  rw [← R.nearestInt_intCast 0]
  exact R.mono (by rwa [Int.cast_zero])

theorem Rounding.le (R : Rounding) {q : ℚ} {z : ℤ} (h : q ≤ z) : R.nearestInt q ≤ z := by
  rw [← R.nearestInt_intCast z]
  exact R.mono h

theorem divide_eq {a b : ℚ} (h : b ≠ 0) : divide a b = some (a / b) := if_neg h

theorem toUInt8_eq {z : ℤ} (h : 0 ≤ z) (h' : z ≤ 255) : toUInt8 z = z :=
  Int.emod_eq_of_lt h (by omega)

theorem clampCode_nonneg (nmax l : ℤ) : 0 ≤ clampCode nmax l := le_max_left _ _

theorem clampCode_le (h : 0 ≤ nmax) (l : ℤ) : clampCode nmax l ≤ nmax :=
  max_le h (min_le_left _ _)

theorem clampCode_mono (nmax : ℤ) : Monotone (clampCode nmax) :=
  fun _ _ h => max_le_max_left 0 (min_le_min_left nmax h)

theorem gridCodes_mono (R : Rounding) (nmax : ℤ) {x : Fin n → ℚ} {min : ℚ} (h : 0 ≤ iscale)
    (hij : x i ≤ x j) : gridCodes R nmax x iscale min i ≤ gridCodes R nmax x iscale min j := by
  apply clampCode_mono
  apply R.mono
  exact mul_le_mul_of_nonneg_left (sub_le_sub_right hij min) h

theorem toUInt8_gridCodes (R : Rounding) (x : Fin n → ℚ) (iscale min : ℚ) (h0 : 0 ≤ nmax)
    (h : nmax ≤ 255) :
    (fun i => toUInt8 (gridCodes R nmax x iscale min i)) = gridCodes R nmax x iscale min := by
  funext i
  exact toUInt8_eq (clampCode_nonneg _ _) ((clampCode_le h0 _).trans h)

/-! ### The least and the greatest value -/

theorem lowest_le (x : Fin (n + 1) → ℚ) (i : Fin (n + 1)) : lowest x ≤ x i := by
  have hmin : (fun m i => if x i < m then x i else m) = fun m i => min m (x i) := by
    funext m i
    rw [min_comm, min_def_lt]
  rw [lowest, hmin]
  exact (foldl_max_spec (β := ℚᵒᵈ) _ _).2.1 i (List.mem_finRange i)

theorem le_greatest (x : Fin (n + 1) → ℚ) (i : Fin (n + 1)) : x i ≤ greatest x := by
  have hmax : (fun m i => if m < x i then x i else m) = fun m i => max m (x i) := by
    funext m i
    rw [max_def_lt]
  rw [greatest, hmax]
  exact (foldl_max_spec _ _).2.1 i (List.mem_finRange i)

/-! ### The search -/

/-- What every step of the search keeps. -/
structure Fit.Sound (nmax : ℤ) (useMad : Bool) (x w : Fin n → ℚ) (max mad : ℚ) (fit : Fit n) :
    Prop where
  scale_nonneg : 0 ≤ fit.scale
  min_nonpos : fit.min ≤ 0
  min_lt : fit.min < max
  codes : ∀ i, 0 ≤ fit.L i ∧ fit.L i ≤ nmax
  bestMad_eq : fit.bestMad = weightedError useMad x w fit.scale fit.min fit.L
  bestMad_le : fit.bestMad ≤ mad

theorem tryGrid_sound {nmax : ℤ} {x w : Fin n → ℚ} {max : ℚ} {fit : Fit n} (R : Rounding) (h0 : 0 ≤ nmax)
    (h255 : nmax ≤ 255) (hw : ∀ i, 0 ≤ w i) (hmax : ∀ i, x i ≤ max) (hshift : 0 ≤ shift)
    (h : fit.Sound nmax useMad x w max mad) :
    ∃ fit', tryGrid R nmax useMad x w max shift fit = some fit' ∧
      fit'.Sound nmax useMad x w max mad := by
  have hwidth : 0 < max - fit.min := sub_pos.2 h.min_lt
  rw [tryGrid, divide_eq hwidth.ne']
  simp only [Option.bind_eq_bind, Option.bind_some, toUInt8_gridCodes R x _ _ h0 h255]
  generalize hl : gridCodes R nmax x (shift / (max - fit.min)) fit.min = l
  have hl0 (i : Fin n) : 0 ≤ l i := by
    rw [← hl]
    exact clampCode_nonneg _ _
  have hlmax (i : Fin n) : l i ≤ nmax := by
    rw [← hl]
    exact clampCode_le h0 _
  have hmono : ∀ i ∈ Finset.univ, ∀ j ∈ Finset.univ, x i ≤ x j → (l i : ℚ) ≤ l j := by
    intro i _ j _ hij
    rw [← hl]
    exact Int.cast_le.2 (gridCodes_mono R nmax (div_nonneg hshift hwidth.le) hij)
  have hl0' : ∀ i ∈ Finset.univ, (0 : ℚ) ≤ l i := fun i _ => Int.cast_nonneg (hl0 i)
  split
  case isFalse => exact ⟨fit, rfl, h⟩
  case isTrue hD =>
    have hcov := covariance_nonneg (fun i _ => hw i) hmono
    have hlt := intercept_lt (fun i _ => hw i) hl0' (fun i _ => hmax i) hmono (sub_pos.1 hD)
    have hsumL : 0 ≤ ∑ i, w i * (l i : ℚ) :=
      Finset.sum_nonneg fun i hi => mul_nonneg (hw i) (hl0' i hi)
    have hsumL2 : 0 < ∑ i, w i * (l i : ℚ) * l i := by
      refine lt_of_le_of_ne (Finset.sum_nonneg fun i hi =>
        mul_nonneg (mul_nonneg (hw i) (hl0' i hi)) (hl0' i hi)) fun heq => ?_
      rw [← heq, mul_zero, zero_sub] at hD
      exact absurd hD (not_lt.2 (neg_nonpos.2 (mul_self_nonneg _)))
    generalize (∑ i, w i * (l i : ℚ)) = sumL at *
    generalize (∑ i, w i * (l i : ℚ) * l i) = sumL2 at *
    generalize (∑ i, w i * (l i : ℚ) * x i) = sumXl at *
    generalize (∑ i, w i * x i) = sumX at *
    generalize hsw : (∑ i, w i) = sumW at *
    rw [divide_eq hD.ne', divide_eq hD.ne']
    simp only [Option.bind_some]
    have hmin : (sumL2 * sumX - sumL * sumXl) / (sumW * sumL2 - sumL * sumL) < max :=
      (div_lt_iff₀ hD).2 hlt
    have hscale : 0 ≤ (sumW * sumXl - sumX * sumL) / (sumW * sumL2 - sumL * sumL) :=
      div_nonneg (sub_nonneg.2 hcov) hD.le
    split
    case isTrue hpos =>
      rw [divide_eq hsumL2.ne']
      simp only [Option.bind_some]
      split
      case isFalse => exact ⟨fit, rfl, h⟩
      case isTrue hmad =>
        have hnum : 0 < sumL2 * sumX - sumL * sumXl := (div_pos_iff_of_pos_right hD).1 hpos
        have hXl : 0 ≤ sumXl := by
          refine nonneg_of_mul_nonneg_left ?_ hD
          calc 0 ≤ sumL2 * (sumW * sumXl - sumX * sumL) + sumL * (sumL2 * sumX - sumL * sumXl) :=
                add_nonneg (mul_nonneg hsumL2.le (sub_nonneg.2 hcov)) (mul_nonneg hsumL hnum.le)
            _ = sumXl * (sumW * sumL2 - sumL * sumL) := by ring
        exact ⟨_, rfl, div_nonneg hXl hsumL2.le, le_refl _, hpos.trans hmin,
          fun i => ⟨hl0 i, hlmax i⟩, rfl, hmad.le.trans h.bestMad_le⟩
    case isFalse hneg =>
      split
      case isFalse => exact ⟨fit, rfl, h⟩
      case isTrue hmad =>
        exact ⟨_, rfl, hscale, not_lt.1 hneg, hmin, fun i => ⟨hl0 i, hlmax i⟩, rfl,
          hmad.le.trans h.bestMad_le⟩

theorem tryGrids_sound {nmax : ℤ} {x w : Fin n → ℚ} {max : ℚ} (R : Rounding) (h0 : 0 ≤ nmax)
    (h255 : nmax ≤ 255) (hw : ∀ i, 0 ≤ w i) (hmax : ∀ i, x i ≤ max) (steps : List Nat) {fit : Fit n}
    (hshift : ∀ is ∈ steps, 0 ≤ rmin + rdelta * (is : ℚ) + nmax)
    (h : fit.Sound nmax useMad x w max mad) :
    ∃ fit', steps.foldlM (fun fit (is : Nat) =>
        tryGrid R nmax useMad x w max (rmin + rdelta * is + nmax) fit) fit = some fit' ∧
      fit'.Sound nmax useMad x w max mad := by
  induction steps generalizing fit with
  | nil => exact ⟨fit, rfl, h⟩
  | cons is steps ih =>
    obtain ⟨hfirst, hrest⟩ := List.forall_mem_cons.1 hshift
    obtain ⟨fit', htry, hfit'⟩ := tryGrid_sound R h0 h255 hw hmax hfirst h
    rw [List.foldlM_cons, htry]
    exact ih hrest hfit'

/-- The error of the uniform grid between the least value or 0 and the greatest value. -/
def initialError (R : Rounding) (nmax : ℤ) (x : Fin (n + 1) → ℚ)
    (weights : Option (Fin (n + 1) → ℚ)) (useMad : Bool) : ℚ :=
  let width := greatest x - min 0 (lowest x)
  weightedError useMad x (weightOf x weights) (width / nmax) (min 0 (lowest x))
    (gridCodes R nmax x (nmax / width) (min 0 (lowest x)))

theorem makeQkx3Quants_sound {nmax : ℤ} {nstep : Nat} (R : Rounding) {x : Fin (n + 1) → ℚ}
    {weights : Option (Fin (n + 1) → ℚ)} (h0 : 0 < nmax) (h255 : nmax ≤ 255)
    (hw : ∀ i, 0 ≤ weightOf x weights i)
    (hshift : ∀ is ≤ nstep, 0 ≤ rmin + rdelta * (is : ℚ) + nmax) (useMad : Bool) :
    ∃ q, makeQkx3Quants R nmax x weights rmin rdelta nstep useMad = some q ∧
      0 ≤ q.scale ∧ 0 ≤ q.theMin ∧ (∀ i, 0 ≤ q.L i ∧ q.L i ≤ nmax) ∧
      weightedError useMad x (weightOf x weights) q.scale (-q.theMin) q.L ≤
        initialError R nmax x weights useMad := by
  have hmin : (if 0 < lowest x then 0 else lowest x) = min 0 (lowest x) := by
    split
    case isTrue h => exact (min_eq_left h.le).symm
    case isFalse h => exact (min_eq_right (not_lt.1 h)).symm
  rw [makeQkx3Quants, initialError]
  simp only [hmin]
  have hmin0 : min 0 (lowest x) ≤ 0 := min_le_left _ _
  have hminx (i : Fin (n + 1)) : min 0 (lowest x) ≤ x i := (min_le_right _ _).trans (lowest_le x i)
  generalize min 0 (lowest x) = low at *
  split
  case isTrue hconst =>
    refine ⟨_, rfl, le_refl _, neg_nonneg.2 hmin0, fun i => ⟨le_refl _, h0.le⟩, ?_⟩
    have hx (i : Fin (n + 1)) : x i = low :=
      le_antisymm ((le_greatest x i).trans hconst) (hminx i)
    have hwidth : greatest x - low = 0 :=
      sub_eq_zero.2 (le_antisymm hconst ((hminx 0).trans (le_greatest x 0)))
    refine le_of_eq (Finset.sum_congr rfl fun i _ => ?_)
    rw [hwidth, zero_div, zero_mul, zero_mul, neg_neg]
  case isFalse hlt =>
    have hwidth : 0 < greatest x - low := sub_pos.2 (not_le.1 hlt)
    have hnmax : (0 : ℚ) < nmax := Int.cast_pos.2 h0
    rw [divide_eq hwidth.ne']
    simp only [Option.bind_eq_bind, Option.bind_some, toUInt8_gridCodes R x _ _ h0.le h255]
    rw [divide_eq (div_pos hnmax hwidth).ne', one_div_div]
    simp only [Option.bind_some]
    have hstart : Fit.Sound nmax useMad x (weightOf x weights) (greatest x)
        (weightedError useMad x (weightOf x weights) ((greatest x - low) / nmax) low
          (gridCodes R nmax x (nmax / (greatest x - low)) low))
        ⟨(greatest x - low) / nmax, low, weightedError useMad x (weightOf x weights)
          ((greatest x - low) / nmax) low (gridCodes R nmax x (nmax / (greatest x - low)) low),
          gridCodes R nmax x (nmax / (greatest x - low)) low⟩ :=
      ⟨div_nonneg hwidth.le hnmax.le, hmin0, not_le.1 hlt,
        fun i => ⟨clampCode_nonneg _ _, clampCode_le h0.le _⟩, rfl, le_refl _⟩
    split
    case isTrue =>
      refine ⟨_, rfl, hstart.scale_nonneg, neg_nonneg.2 hmin0, hstart.codes, ?_⟩
      rw [neg_neg]
    case isFalse =>
      obtain ⟨fit, hfit, hsound⟩ := tryGrids_sound R h0.le h255 hw (le_greatest x)
        (List.range (nstep + 1)) (fun is his => hshift is (Nat.lt_succ_iff.1 (List.mem_range.1 his)))
        hstart
      rw [hfit]
      refine ⟨_, rfl, hsound.scale_nonneg, neg_nonneg.2 hsound.min_nonpos, hsound.codes, ?_⟩
      rw [neg_neg, ← hsound.bestMad_eq]
      exact hsound.bestMad_le

end ActQuant.KQuant
