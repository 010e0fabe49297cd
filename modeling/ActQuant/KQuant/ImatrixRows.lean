import ActQuant.KQuant.ScaleCodes
import ActQuant.KQuant.Packing

namespace ActQuant.KQuant
open ActQuant.Lib

/-! The rows that are quantized with an importance matrix. -/

/-- The conversions between numbers and those of half width. -/
structure HalfFloat where
  ofFloat : ℚ → Half
  toFloat : Half → ℚ

/-- All results of a loop, unless one of them is missing. -/
def collect (f : Fin k → Option α) : Option (Fin k → α) :=
  if h : ∀ j, (f j).isSome then some fun j => (f j).get (h j) else none

/-- The sub-blocks with their scales and minima, and the codes of these. -/
structure SuperBlock (k n : Nat) where
  quants : Fin k → Quants n
  d : ℚ
  dmin : ℚ
  Ls : Fin k → ℤ
  Lm : Fin k → ℤ

/-- The searches of `quantize_row_q2_K_impl` and `quantize_row_q4_K_impl`. -/
def searchSuperBlock (R : Rounding) (nmax nmaxScale : ℤ) (x weights : Fin k → Fin (n + 1) → ℚ) :
    Option (SuperBlock k (n + 1)) := do
  let sw := fun j => ∑ l, weights j l
  let quants ← collect fun j =>
    makeQkx3Quants R nmax (x j) (some (weights j)) (-9 / 10) (1 / 20) 36 false
  let scales ← makeQpQuants R toUInt8 nmaxScale (fun j => (quants j).scale) sw
  let mins ← makeQpQuants R toUInt8 nmaxScale (fun j => (quants j).theMin) sw
  some ⟨quants, scales.1, mins.1, scales.2, mins.2⟩

/-- The codes again, with the scales and minima as they are packed. -/
def requantize (R : Rounding) (nmax : ℤ) (x : Fin k → Fin n → ℚ) (d dm : Fin k → ℚ)
    (L : Fin k → Fin n → ℤ) (j : Fin k) (i : Fin n) : ℤ :=
  if d j = 0 then L j i else toUInt8 (clampCode nmax (R.nearestInt ((x j i + dm j) / d j)))

/-- The codes of a block, one sub-block after the other. -/
def codesOf [NeZero k] [NeZero n] (L : Fin k → Fin n → ℤ) (Ls Lm : Fin k → ℤ) : Codes where
  q p := (L (Fin.ofNat k (p / n)) (Fin.ofNat n p)).toNat
  scale j := Ls (Fin.ofNat k j)
  min j := (Lm (Fin.ofNat k j)).toNat

/-! ### Four bits -/

/-- The weights of `quantize_row_q4_K_impl`, where `sigma2` is twice the mean square. -/
def weightsQ4K (sqrtf : ℚ → ℚ) (x : Nat → ℚ) (quantWeights : Option (Nat → ℚ)) (j : Fin 8)
    (l : Fin 32) : ℚ :=
  let sigma2 := 2 * (∑ l ∈ Finset.range 256, x l * x l) / 256
  match quantWeights with
  | some qw => qw (32 * j + l) * sqrtf (sigma2 + x (32 * j + l) * x (32 * j + l))
  | none => sqrtf sigma2 + |x (32 * j + l)|

/-- The codes of a block of `quantize_row_q4_K_impl`, with its scale and its minimum. -/
def codesQ4KImpl (R : Rounding) (sqrtf : ℚ → ℚ) (half : HalfFloat) (x : Nat → ℚ)
    (quantWeights : Option (Nat → ℚ)) : Option (Codes × Half × Half) := do
  let xs := fun (j : Fin 8) (l : Fin 32) => x (32 * j + l)
  let s ← searchSuperBlock R 15 63 xs (weightsQ4K sqrtf x quantWeights)
  let L := fun j => (s.quants j).L
  let d := half.ofFloat s.d
  let dmin := half.ofFloat s.dmin
  let scaleMin := fun (j : Fin 8) => getScaleMinK4 j (packScalesK4 (codesOf L s.Ls s.Lm))
  let L := requantize R 15 xs (fun j => half.toFloat d * (scaleMin j).1.toNat)
    (fun j => half.toFloat dmin * (scaleMin j).2.toNat) L
  some (codesOf L s.Ls s.Lm, d, dmin)

/-- `quantize_row_q4_K_impl`, which packs the codes as they are. -/
def quantizeRowQ4KImpl (R : Rounding) (sqrtf : ℚ → ℚ) (half : HalfFloat) (nb : Nat) (x : Nat → ℚ)
    (quantWeights : Option (Nat → ℚ)) : Option (List BlockQ4K) :=
  (List.range nb).mapM fun i =>
    (codesQ4KImpl R sqrtf half (fun l => x (256 * i + l))
      (quantWeights.map fun qw l => qw (256 * i + l))).map fun c => packQ4K c.1 c.2.1 c.2.2

/-! ### Two bits -/

/-- The weights of `quantize_row_q2_K_impl`, where `sigma2` is the mean square. -/
def weightsQ2K (sqrtf : ℚ → ℚ) (x qw : Nat → ℚ) (j : Fin 16) (l : Fin 16) : ℚ :=
  let sigma2 := (∑ l ∈ Finset.range 256, x l * x l) / 256
  qw (16 * j + l) * sqrtf (sigma2 + x (16 * j + l) * x (16 * j + l))

/-- The codes of a block of `quantize_row_q2_K_impl`, with its scale and its minimum. -/
def codesQ2KImpl (R : Rounding) (sqrtf : ℚ → ℚ) (half : HalfFloat) (x quantWeights : Nat → ℚ) :
    Option (Codes × Half × Half) := do
  let xs := fun (j : Fin 16) (l : Fin 16) => x (16 * j + l)
  let s ← searchSuperBlock R 3 15 xs (weightsQ2K sqrtf x quantWeights)
  let L := fun j => (s.quants j).L
  let d := half.ofFloat s.d
  let dmin := half.ofFloat s.dmin
  let scales := (packQ2K (codesOf L s.Ls s.Lm) d dmin).scales
  let L := requantize R 3 xs (fun j => half.toFloat d * (scales j &&& 0xF#8).toNat)
    (fun j => half.toFloat dmin * (scales j >>> 4).toNat) L
  some (codesOf L s.Ls s.Lm, d, dmin)

/-- `quantize_row_q2_K_impl`. -/
def quantizeRowQ2KImpl (R : Rounding) (sqrtf : ℚ → ℚ) (half : HalfFloat) (nb : Nat)
    (x quantWeights : Nat → ℚ) : Option (List BlockQ2K) :=
  (List.range nb).mapM fun i =>
    (codesQ2KImpl R sqrtf half (fun l => x (256 * i + l))
      fun l => quantWeights (256 * i + l)).map fun c => packQ2K c.1 c.2.1 c.2.2

/-! ### What the searches find -/

theorem collect_eq {f : Fin k → Option α} {P : Fin k → α → Prop}
    (h : ∀ j, ∃ a, f j = some a ∧ P j a) : ∃ g, collect f = some g ∧ ∀ j, P j (g j) := by
  have hsome (j : Fin k) : (f j).isSome := by
    obtain ⟨a, ha, _⟩ := h j
    rw [ha]
    rfl
  refine ⟨fun j => (f j).get (hsome j), dif_pos hsome, fun j => ?_⟩
  obtain ⟨a, ha, hP⟩ := h j
  simp only [ha, Option.get_some]
  exact hP

/-- The codes of a block fit, those of its scales and minima too. -/
structure SuperBlock.Fits (nmax nmaxScale : ℤ) (s : SuperBlock k n) : Prop where
  codes : ∀ j i, 0 ≤ (s.quants j).L i ∧ (s.quants j).L i ≤ nmax
  scales : ∀ j, 0 ≤ s.Ls j ∧ s.Ls j ≤ nmaxScale
  mins : ∀ j, 0 ≤ s.Lm j ∧ s.Lm j ≤ nmaxScale

theorem searchSuperBlock_fits {nmax nmaxScale : ℤ} (R : Rounding)
    {x weights : Fin k → Fin (n + 1) → ℚ} (h0 : 0 < nmax) (h255 : nmax ≤ 255)
    (hs0 : 0 < nmaxScale) (hs255 : nmaxScale ≤ 255) (hw : ∀ j l, 0 ≤ weights j l) :
    ∃ s, searchSuperBlock R nmax nmaxScale x weights = some s ∧ s.Fits nmax nmaxScale := by
  have hshift (is : Nat) (_ : is ≤ 36) : (0 : ℚ) ≤ -9 / 10 + 1 / 20 * is + nmax := by
    have hnmax : ((1 : ℤ) : ℚ) ≤ nmax := Int.cast_le.2 h0
    have his : (0 : ℚ) ≤ is := Nat.cast_nonneg is
    norm_num at hnmax
    linarith
  have hweight (j : Fin k) : ∀ i, 0 ≤ weightOf (x j) (some (weights j)) i := hw j
  have hquant (j : Fin k) := makeQkx3Quants_sound R h0 h255 (hweight j) hshift false
  obtain ⟨quants, hquants, hsound⟩ := collect_eq hquant
  have hsw (j : Fin k) : 0 ≤ ∑ l, weights j l := Finset.sum_nonneg fun l _ => hw j l
  obtain ⟨⟨d, Ls, hscales, _, hLs⟩, _⟩ :=
    makeQpQuants_sound R (fun j => (hsound j).1) hsw hs0 hs255
  obtain ⟨⟨dmin, Lm, hmins, _, hLm⟩, _⟩ :=
    makeQpQuants_sound R (fun j => (hsound j).2.1) hsw hs0 hs255
  rw [searchSuperBlock, hquants]
  simp only [Option.bind_eq_bind, Option.bind_some]
  rw [hscales, Option.bind_some, hmins]
  exact ⟨_, rfl, fun j => (hsound j).2.2.1, hLs, hLm⟩

theorem requantize_fits {nmax : ℤ} (R : Rounding) (h0 : 0 ≤ nmax) (h255 : nmax ≤ 255)
    (x : Fin k → Fin n → ℚ) (d dm : Fin k → ℚ) {L : Fin k → Fin n → ℤ}
    (hL : ∀ j i, 0 ≤ L j i ∧ L j i ≤ nmax) (j : Fin k) (i : Fin n) :
    0 ≤ requantize R nmax x d dm L j i ∧ requantize R nmax x d dm L j i ≤ nmax := by
  rw [requantize]
  split
  case isTrue => exact hL j i
  case isFalse =>
    rw [toUInt8_eq (clampCode_nonneg _ _) ((clampCode_le h0 _).trans h255)]
    exact ⟨clampCode_nonneg _ _, clampCode_le h0 _⟩

/-- The codes of a block are below `n`, and those of its scales and minima below `m`. -/
structure Codes.Fits (n m : Nat) (c : Codes) : Prop where
  scale : ∀ j, 0 ≤ c.scale j ∧ c.scale j < m
  min : ∀ j, c.min j < m
  q : ∀ p, c.q p < n

theorem codesOf_fits [NeZero k] [NeZero n] {L : Fin k → Fin n → ℤ} {Ls Lm : Fin k → ℤ}
    (hL : ∀ j i, 0 ≤ L j i ∧ L j i ≤ (a : Nat)) (hLs : ∀ j, 0 ≤ Ls j ∧ Ls j ≤ (b : Nat))
    (hLm : ∀ j, 0 ≤ Lm j ∧ Lm j ≤ (b : Nat)) : (codesOf L Ls Lm).Fits (a + 1) (b + 1) where
  scale j := by
    have hj := hLs (Fin.ofNat k j)
    simp only [codesOf]
    omega
  min j := by
    have hj := hLm (Fin.ofNat k j)
    simp only [codesOf]
    omega
  q p := by
    have hp := hL (Fin.ofNat k (p / n)) (Fin.ofNat n p)
    simp only [codesOf]
    omega

section Rows
variable {sqrtf : ℚ → ℚ} (R : Rounding) (half : HalfFloat) (hsqrt : ∀ q, 0 ≤ sqrtf q)
include hsqrt

theorem weightsQ4K_nonneg {quantWeights : Option (Nat → ℚ)}
    (hqw : ∀ qw ∈ quantWeights, ∀ l, 0 ≤ qw l) (x : Nat → ℚ) (j : Fin 8) (l : Fin 32) :
    0 ≤ weightsQ4K sqrtf x quantWeights j l := by
  cases quantWeights with
  | none => exact add_nonneg (hsqrt _) (abs_nonneg _)
  | some qw => exact mul_nonneg (hqw qw rfl _) (hsqrt _)

theorem codesQ4KImpl_fits {quantWeights : Option (Nat → ℚ)}
    (hqw : ∀ qw ∈ quantWeights, ∀ l, 0 ≤ qw l) (x : Nat → ℚ) :
    ∃ c, codesQ4KImpl R sqrtf half x quantWeights = some c ∧ c.1.Fits 16 64 := by
  have hsearch : ∃ s, searchSuperBlock R 15 63 (fun (j : Fin 8) (l : Fin 32) => x (32 * j + l))
      (weightsQ4K sqrtf x quantWeights) = some s ∧ s.Fits 15 63 :=
    searchSuperBlock_fits R (by omega) (by omega) (by omega) (by omega)
      (weightsQ4K_nonneg hsqrt hqw x)
  obtain ⟨s, hs, hfits⟩ := hsearch
  rw [codesQ4KImpl]
  simp only [Option.bind_eq_bind]
  rw [hs, Option.bind_some]
  exact ⟨_, rfl, codesOf_fits (requantize_fits R (by omega) (by omega) _ _ _ hfits.codes)
    hfits.scales hfits.mins⟩

theorem codesQ2KImpl_fits {quantWeights : Nat → ℚ} (hqw : ∀ l, 0 ≤ quantWeights l) (x : Nat → ℚ) :
    ∃ c, codesQ2KImpl R sqrtf half x quantWeights = some c ∧ c.1.Fits 4 16 := by
  have hsearch : ∃ s, searchSuperBlock R 3 15 (fun (j : Fin 16) (l : Fin 16) => x (16 * j + l))
      (weightsQ2K sqrtf x quantWeights) = some s ∧ s.Fits 3 15 :=
    searchSuperBlock_fits R (by omega) (by omega) (by omega) (by omega)
      fun j l => mul_nonneg (hqw _) (hsqrt _)
  obtain ⟨s, hs, hfits⟩ := hsearch
  rw [codesQ2KImpl]
  simp only [Option.bind_eq_bind]
  rw [hs, Option.bind_some]
  exact ⟨_, rfl, codesOf_fits (requantize_fits R (by omega) (by omega) _ _ _ hfits.codes)
    hfits.scales hfits.mins⟩

/-- The rows of four bits are packed, and read back as the codes they were packed from. -/
theorem quantizeRowQ4KImpl_fits {quantWeights : Option (Nat → ℚ)}
    (hqw : ∀ qw ∈ quantWeights, ∀ l, 0 ≤ qw l) (nb : Nat) (x : Nat → ℚ) :
    ∃ c : Nat → Codes × Half × Half,
      quantizeRowQ4KImpl R sqrtf half nb x quantWeights =
        some ((List.range nb).map fun i => packQ4K (c i).1 (c i).2.1 (c i).2.2) ∧
      ∀ i, codesQ4KImpl R sqrtf half (fun l => x (256 * i + l))
          (quantWeights.map fun qw l => qw (256 * i + l)) = some (c i) ∧ (c i).1.Fits 16 64 ∧
        (∀ j < 8, ((getScaleMinK4 j (packScalesK4 (c i).1)).1.toNat : Int) = (c i).1.scale j ∧
          (getScaleMinK4 j (packScalesK4 (c i).1)).2.toNat = (c i).1.min j) ∧
        dequantizeRowQ4K (packQ4K (c i).1 (c i).2.1 (c i).2.2) = (List.range 256).map fun p =>
          ⟨(c i).2.1, (c i).2.2, (c i).1.scale (p / 32), (c i).1.min (p / 32), (c i).1.q p⟩ := by
  have hqwBlock (i : Nat) : ∀ qw ∈ quantWeights.map (fun qw l => qw (256 * i + l)), ∀ l, 0 ≤ qw l := by
    intro qw hqw'
    obtain ⟨qw', hmem, rfl⟩ := Option.map_eq_some_iff.1 hqw'
    exact fun l => hqw qw' hmem _
  have hblock (i : Nat) := codesQ4KImpl_fits R half hsqrt (hqwBlock i) fun l => x (256 * i + l)
  choose c hc hfits using hblock
  refine ⟨c, ?_, fun i => ⟨hc i, hfits i, fun j hj => ?_, ?_⟩⟩
  · rw [quantizeRowQ4KImpl]
    apply mapM_eq_some_map
    intro i _
    rw [hc i]
    rfl
  · exact scaleMin_roundTrip (fun j _ => (hfits i).scale j) (fun j _ => (hfits i).min j) hj
  · exact q4K_roundTrip _ _ (fun p _ => (hfits i).q p) (fun j _ => (hfits i).scale j)
      fun j _ => (hfits i).min j

/-- The rows of two bits are packed, and read back as the codes they were packed from. -/
theorem quantizeRowQ2KImpl_fits {quantWeights : Nat → ℚ} (hqw : ∀ l, 0 ≤ quantWeights l)
    (nb : Nat) (x : Nat → ℚ) :
    ∃ c : Nat → Codes × Half × Half,
      quantizeRowQ2KImpl R sqrtf half nb x quantWeights =
        some ((List.range nb).map fun i => packQ2K (c i).1 (c i).2.1 (c i).2.2) ∧
      ∀ i, codesQ2KImpl R sqrtf half (fun l => x (256 * i + l))
          (fun l => quantWeights (256 * i + l)) = some (c i) ∧ (c i).1.Fits 4 16 ∧
        dequantizeRowQ2K (packQ2K (c i).1 (c i).2.1 (c i).2.2) = (List.range 256).map fun p =>
          ⟨(c i).2.1, (c i).2.2, (c i).1.scale (p / 16), (c i).1.min (p / 16), (c i).1.q p⟩ := by
  have hqwBlock (i l : Nat) : 0 ≤ quantWeights (256 * i + l) := hqw _
  have hblock (i : Nat) := codesQ2KImpl_fits R half hsqrt (hqwBlock i) fun l => x (256 * i + l)
  choose c hc hfits using hblock
  refine ⟨c, ?_, fun i => ⟨hc i, hfits i, ?_⟩⟩
  · rw [quantizeRowQ2KImpl]
    apply mapM_eq_some_map
    intro i _
    rw [hc i]
    rfl
  · exact q2K_roundTrip _ _ (fun p _ => (hfits i).q p) (fun j _ => (hfits i).scale j)
      fun j _ => (hfits i).min j

end Rows

/-! ### The searches -/

theorem weightOf_nonneg {weights : Option (Fin n → ℚ)} (h : ∀ w ∈ weights, ∀ i, 0 ≤ w i)
    (x : Fin n → ℚ) (i : Fin n) : 0 ≤ weightOf x weights i := by
  cases weights with
  | none => exact mul_self_nonneg _
  | some w => exact h w rfl i

/-- No search divides by zero. The first one gives a scale and a minimum that are not negative and
an error that is not above that of the uniform grid it starts from. In the second one no code wraps,
and whatever the refinement changes lowers the error. So the rows pack codes that fit. -/
theorem scaleSearch_sound (R : Rounding) :
    (∀ (nmax : ℤ) (n : Nat) (x : Fin (n + 1) → ℚ) (weights : Option (Fin (n + 1) → ℚ))
        (rmin rdelta : ℚ) (nstep : Nat) (useMad : Bool), 0 < nmax → nmax ≤ 255 →
      (∀ w ∈ weights, ∀ i, 0 ≤ w i) → (∀ is ≤ nstep, 0 ≤ rmin + rdelta * (is : ℚ) + nmax) →
      ∃ q, makeQkx3Quants R nmax x weights rmin rdelta nstep useMad = some q ∧
        0 ≤ q.scale ∧ 0 ≤ q.theMin ∧ (∀ i, 0 ≤ q.L i ∧ q.L i ≤ nmax) ∧
        weightedError useMad x (weightOf x weights) q.scale (-q.theMin) q.L ≤
          initialError R nmax x weights useMad) ∧
    (∀ (nmax : ℤ) (n : Nat) (x w : Fin n → ℚ), 0 < nmax → nmax ≤ 255 → (∀ i, 0 ≤ x i) →
      (∀ i, 0 ≤ w i) →
      (∃ scale L, makeQpQuants R toUInt8 nmax x w = some (scale, L) ∧
        makeQpQuants R id nmax x w = some (scale, L) ∧ ∀ i, 0 ≤ L i ∧ L i ≤ nmax) ∧
      ∀ iscale s, bestIscale R toUInt8 nmax x w (greatestOrZero x) = some iscale →
        Relation.ReflTransGen (Visit R nmax x w) (startRefinement R toUInt8 nmax x w iscale) s →
        ∀ i, ∃ s', refineOne R toUInt8 nmax x w s i = some s' ∧ Improves x w i s s') ∧
    ∀ (sqrtf : ℚ → ℚ) (half : HalfFloat) (nb : Nat) (x : Nat → ℚ), (∀ q, 0 ≤ sqrtf q) →
      (∀ quantWeights : Option (Nat → ℚ), (∀ qw ∈ quantWeights, ∀ l, 0 ≤ qw l) →
        ∃ c : Nat → Codes × Half × Half,
          quantizeRowQ4KImpl R sqrtf half nb x quantWeights =
            some ((List.range nb).map fun i => packQ4K (c i).1 (c i).2.1 (c i).2.2) ∧
          ∀ i, codesQ4KImpl R sqrtf half (fun l => x (256 * i + l))
              (quantWeights.map fun qw l => qw (256 * i + l)) = some (c i) ∧
            (c i).1.Fits 16 64 ∧
            (∀ j < 8, ((getScaleMinK4 j (packScalesK4 (c i).1)).1.toNat : Int) = (c i).1.scale j ∧
              (getScaleMinK4 j (packScalesK4 (c i).1)).2.toNat = (c i).1.min j) ∧
            dequantizeRowQ4K (packQ4K (c i).1 (c i).2.1 (c i).2.2) = (List.range 256).map fun p =>
              ⟨(c i).2.1, (c i).2.2, (c i).1.scale (p / 32), (c i).1.min (p / 32), (c i).1.q p⟩) ∧
      ∀ quantWeights : Nat → ℚ, (∀ l, 0 ≤ quantWeights l) →
        ∃ c : Nat → Codes × Half × Half,
          quantizeRowQ2KImpl R sqrtf half nb x quantWeights =
            some ((List.range nb).map fun i => packQ2K (c i).1 (c i).2.1 (c i).2.2) ∧
          ∀ i, codesQ2KImpl R sqrtf half (fun l => x (256 * i + l))
              (fun l => quantWeights (256 * i + l)) = some (c i) ∧ (c i).1.Fits 4 16 ∧
            dequantizeRowQ2K (packQ2K (c i).1 (c i).2.1 (c i).2.2) = (List.range 256).map fun p =>
              ⟨(c i).2.1, (c i).2.2, (c i).1.scale (p / 16), (c i).1.min (p / 16), (c i).1.q p⟩ := by
  refine ⟨?_, ?_, ?_⟩
  · intro nmax n x weights rmin rdelta nstep useMad h0 h255 hw hshift
    exact makeQkx3Quants_sound R h0 h255 (weightOf_nonneg hw x) hshift useMad
  · intro nmax n x w h0 h255 hx hw
    exact makeQpQuants_sound R hx hw h0 h255
  · intro sqrtf half nb x hsqrt
    exact ⟨fun _ hqw => quantizeRowQ4KImpl_fits R half hsqrt hqw nb x,
      fun _ hqw => quantizeRowQ2KImpl_fits R half hsqrt hqw nb x⟩

/-- Halves go up. -/
def halfUp : Rounding where
  nearestInt := round
  mono p q h := by
    rw [round_eq, round_eq]
    exact Int.floor_mono (add_le_add_left h _)
  near := abs_sub_round

/-- Values of both signs with a weight of 0, and a block of zeros. -/
theorem scaleSearch_sound_halfUp :
    (∃ q, makeQkx3Quants halfUp 3 (fun i : Fin (2 + 1) => (i.val : ℚ) - 1) (some fun i => i.val)
        (-9 / 10) (1 / 20) 36 false = some q ∧ 0 ≤ q.scale ∧ 0 ≤ q.theMin) ∧
      (∃ scale L, makeQpQuants halfUp toUInt8 63 (fun i : Fin 3 => i.val) (fun i => i.val) =
        some (scale, L) ∧ ∀ i, 0 ≤ L i ∧ L i ≤ 63) ∧
      ∃ ys, quantizeRowQ4KImpl halfUp (fun _ => 0) ⟨fun _ => noHalf, fun _ => 0⟩ 1 (fun _ => 0)
        (some fun _ => 1) = some ys := by
  obtain ⟨hfirst, hsecond, hrows⟩ := scaleSearch_sound halfUp
  refine ⟨?_, ?_, ?_⟩
  · have hw : ∀ w ∈ some fun i : Fin (2 + 1) => (i.val : ℚ), ∀ i, 0 ≤ w i := by
      intro w hw i
      cases hw
      exact Nat.cast_nonneg _
    have hshift (is : Nat) (_ : is ≤ 36) : (0 : ℚ) ≤ -9 / 10 + 1 / 20 * is + (3 : ℤ) := by
      have his : (0 : ℚ) ≤ is := Nat.cast_nonneg is
      norm_num
      linarith
    obtain ⟨q, hq, hscale, hmin, _⟩ := hfirst 3 2 (fun i => (i.val : ℚ) - 1) _ (-9 / 10) (1 / 20)
      36 false (by decide) (by decide) hw hshift
    exact ⟨q, hq, hscale, hmin⟩
  · obtain ⟨scale, L, hL, _, hcodes⟩ := (hsecond 63 3 (fun i => i.val) (fun i => i.val)
      (by decide) (by decide) (fun i => Nat.cast_nonneg _) fun i => Nat.cast_nonneg _).1
    exact ⟨scale, L, hL, hcodes⟩
  · have hqw : ∀ qw ∈ some fun _ : Nat => (1 : ℚ), ∀ l, 0 ≤ qw l := by
      intro qw hqw l
      cases hqw
      exact zero_le_one
    obtain ⟨c, hc, _⟩ := (hrows (fun _ => 0) ⟨fun _ => noHalf, fun _ => 0⟩ 1 (fun _ => 0)
      fun _ => le_refl _).1 _ hqw
    exact ⟨_, hc⟩

end ActQuant.KQuant
