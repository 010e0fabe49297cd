import ActQuant.KQuant.ScaleSearch

namespace ActQuant.KQuant
open ActQuant.Lib

/-! The search for the codes of scales, and its refinement one code at a time. -/

/-- `GROUP_MAX_EPS`. -/
def groupMaxEps : ℚ := 1 / 10 ^ 15

def greatestOrZero (x : Fin n → ℚ) : ℚ := (List.finRange n).foldl (fun m i => max m (x i)) 0

/-- One more inverse scale, with the best error and inverse scale so far. -/
def tryScale (R : Rounding) (nmax : ℤ) (x w : Fin n → ℚ) (m : ℚ) (best : ℚ × ℚ) (is : ℤ) :
    Option (ℚ × ℚ) :=
  if is = 0 then some best
  else do
    let iscaleIs ← divide (1 / 10 * is + nmax) m
    let scaleIs ← divide 1 iscaleIs
    let diff := fun i => x i - scaleIs * (min nmax (R.nearestInt (iscaleIs * x i)) : ℤ)
    let mse := ∑ i, w i * diff i * diff i
    if mse < best.1 then some (mse, iscaleIs) else some best

/-- The inverse scale that the refinement starts from. -/
def bestIscale (R : Rounding) (store : ℤ → ℤ) (nmax : ℤ) (x w : Fin n → ℚ) (m : ℚ) :
    Option ℚ := do
  let iscale ← divide nmax m
  let L := fun i => store (R.nearestInt (iscale * x i))
  let scale ← divide 1 iscale
  let diff := fun i => x i - scale * L i
  let best ← [-4, -3, -2, -1, 0, 1, 2, 3, 4].foldlM (tryScale R nmax x w m)
    (∑ i, w i * diff i * diff i, iscale)
  some best.2

/-- The codes in the refinement, their sums, and how many have changed in this try. -/
structure Refinement (n : Nat) where
  L : Fin n → ℤ
  sumlx : ℚ
  suml2 : ℚ
  nChanged : Nat

def startRefinement (R : Rounding) (store : ℤ → ℤ) (nmax : ℤ) (x w : Fin n → ℚ) (iscale : ℚ) :
    Refinement n :=
  let l := fun i => min nmax (R.nearestInt (iscale * x i))
  ⟨fun i => store (l i), ∑ i, w i * x i * l i, ∑ i, w i * l i * l i, 0⟩

/-- The best code of one entry for the scale that the others give, if it is better. -/
def refineOne (R : Rounding) (store : ℤ → ℤ) (nmax : ℤ) (x w : Fin n → ℚ) (s : Refinement n)
    (i : Fin n) : Option (Refinement n) :=
  let slx := s.sumlx - w i * x i * s.L i
  let sl2 := s.suml2 - w i * s.L i * s.L i
  if 0 < slx ∧ 0 < sl2 then do
    let quotient ← divide (x i * sl2) slx
    let newL := min nmax (R.nearestInt quotient)
    if newL ≠ s.L i then
      let slx := slx + w i * x i * newL
      let sl2 := sl2 + w i * newL * newL
      if s.sumlx * s.sumlx * sl2 < slx * slx * s.suml2 then
        some ⟨Function.update s.L i (store newL), slx, sl2, s.nChanged + 1⟩
      else some s
    else some s
  else some s

def refine (R : Rounding) (store : ℤ → ℤ) (nmax : ℤ) (x w : Fin n → ℚ) :
    Nat → Refinement n → Option (Refinement n)
  | 0, s => some s
  | tries + 1, s => do
    let s ← (List.finRange n).foldlM (refineOne R store nmax x w) { s with nChanged := 0 }
    if s.nChanged = 0 then some s else refine R store nmax x w tries s

/-- `make_qp_quants`, with the conversion of the codes to the type they are stored in. -/
def makeQpQuants (R : Rounding) (store : ℤ → ℤ) (nmax : ℤ) (x w : Fin n → ℚ) :
    Option (ℚ × (Fin n → ℤ)) :=
  if greatestOrZero x < groupMaxEps then some (0, fun _ => 0)
  else do
    let iscale ← bestIscale R store nmax x w (greatestOrZero x)
    let s ← refine R store nmax x w 5 (startRefinement R store nmax x w iscale)
    let scale ← if 0 < s.suml2 then divide s.sumlx s.suml2 else some 0
    some (scale, s.L)

/-! ### The inverse scale -/

theorem le_greatestOrZero (x : Fin n → ℚ) (i : Fin n) : x i ≤ greatestOrZero x :=
  (foldl_max_spec _ _).2.1 i (List.mem_finRange i)

section Scale
variable {x w : Fin n → ℚ} {m : ℚ} (R : Rounding)

theorem tryScale_pos (hm : 0 < m) (hnmax : 0 < nmax) (his : -4 ≤ is) (hbest : 0 < best.2) :
    ∃ best', tryScale R nmax x w m best is = some best' ∧ 0 < best'.2 := by
  rw [tryScale]
  split
  case isTrue => exact ⟨best, rfl, hbest⟩
  case isFalse =>
    have hpos : (0 : ℚ) < 1 / 10 * is + nmax := by
      have his' : ((-4 : ℤ) : ℚ) ≤ is := Int.cast_le.2 his
      have hnmax' : ((1 : ℤ) : ℚ) ≤ nmax := Int.cast_le.2 hnmax
      norm_num at his' hnmax'
      linarith
    rw [divide_eq hm.ne']
    simp only [Option.bind_eq_bind, Option.bind_some]
    rw [divide_eq (div_pos hpos hm).ne']
    simp only [Option.bind_some]
    split
    case isTrue => exact ⟨_, rfl, div_pos hpos hm⟩
    case isFalse => exact ⟨best, rfl, hbest⟩

theorem tryScales_pos (hm : 0 < m) (hnmax : 0 < nmax) (steps : List ℤ) (his : ∀ is ∈ steps, -4 ≤ is)
    (hbest : 0 < best.2) :
    ∃ best', steps.foldlM (tryScale R nmax x w m) best = some best' ∧ 0 < best'.2 := by
  induction steps generalizing best with
  | nil => exact ⟨best, rfl, hbest⟩
  | cons is steps ih =>
    obtain ⟨hfirst, hrest⟩ := List.forall_mem_cons.1 his
    obtain ⟨best', htry, hbest'⟩ := tryScale_pos R hm hnmax hfirst hbest
    rw [List.foldlM_cons, htry]
    exact ih hrest hbest'

/-- The codes that are not clamped fit as they are. -/
theorem bestIscale_eq (hx : ∀ i, 0 ≤ x i) (hxm : ∀ i, x i ≤ m) (hm : 0 < m) (hnmax : 0 < nmax)
    (hstore : ∀ z, 0 ≤ z → z ≤ nmax → store z = z) :
    bestIscale R store nmax x w m = bestIscale R id nmax x w m ∧
      ∃ iscale, bestIscale R id nmax x w m = some iscale ∧ 0 < iscale := by
  have hnmax' : (0 : ℚ) < nmax := Int.cast_pos.2 hnmax
  have hcode (i : Fin n) : store (R.nearestInt (nmax / m * x i)) = R.nearestInt (nmax / m * x i) := by
    apply hstore
    · exact R.nonneg (mul_nonneg (div_pos hnmax' hm).le (hx i))
    · apply R.le
      rw [div_mul_eq_mul_div]
      exact (div_le_iff₀ hm).2 (mul_le_mul_of_nonneg_left (hxm i) hnmax'.le)
  constructor
  · rw [bestIscale, bestIscale, divide_eq hm.ne']
    simp only [Option.bind_eq_bind, Option.bind_some, hcode, id_eq]
  · rw [bestIscale, divide_eq hm.ne']
    simp only [Option.bind_eq_bind, Option.bind_some]
    rw [divide_eq (div_pos hnmax' hm).ne']
    simp only [Option.bind_some]
    generalize (∑ i, w i * _ * _) = mse
    obtain ⟨best, hbest, hpos⟩ := tryScales_pos R (x := x) (w := w) hm hnmax
      [-4, -3, -2, -1, 0, 1, 2, 3, 4] (by decide) (show 0 < (mse, nmax / m).2 from div_pos hnmax' hm)
    rw [hbest]
    exact ⟨best.2, rfl, hpos⟩

end Scale

/-! ### The refinement -/

/-- The sums are those of the codes, and the codes fit. -/
structure Refinement.Sound (nmax : ℤ) (x w : Fin n → ℚ) (s : Refinement n) : Prop where
  codes : ∀ i, 0 ≤ s.L i ∧ s.L i ≤ nmax
  sumlx_eq : s.sumlx = ∑ i, w i * x i * s.L i
  suml2_eq : s.suml2 = ∑ i, w i * s.L i * s.L i

/-- The weighted error at the scale that the sums give. -/
def Refinement.error (x w : Fin n → ℚ) (s : Refinement n) : ℚ :=
  ∑ i, w i * (x i - s.sumlx / s.suml2 * s.L i) * (x i - s.sumlx / s.suml2 * s.L i)

section Refine
variable {x w : Fin n → ℚ} {s : Refinement n}

theorem Refinement.Sound.error_eq (h : s.Sound nmax x w) (hne : s.suml2 ≠ 0) :
    s.error x w = (∑ i, w i * x i * x i) - s.sumlx * s.sumlx / s.suml2 := by
  have hterm (i : Fin n) :
      w i * (x i - s.sumlx / s.suml2 * s.L i) * (x i - s.sumlx / s.suml2 * s.L i) =
        w i * x i * x i - 2 * (s.sumlx / s.suml2) * (w i * x i * s.L i) +
          s.sumlx / s.suml2 * (s.sumlx / s.suml2) * (w i * s.L i * s.L i) := by
    ring
  rw [error, Finset.sum_congr rfl fun i _ => hterm i, Finset.sum_add_distrib,
    Finset.sum_sub_distrib, ← Finset.mul_sum, ← Finset.mul_sum, ← h.sumlx_eq, ← h.suml2_eq]
  field_simp
  ring

theorem sum_update (f : Fin n → ℤ → ℚ) (L : Fin n → ℤ) (i : Fin n) (l : ℤ) :
    ∑ j, f j (Function.update L i l j) = (∑ j, f j (L j)) - f i (L i) + f i l := by
  have hrest : ∑ j ∈ Finset.univ.erase i, f j (Function.update L i l j) =
      ∑ j ∈ Finset.univ.erase i, f j (L j) :=
    Finset.sum_congr rfl fun j hj => by rw [Function.update_of_ne (Finset.ne_of_mem_erase hj)]
  rw [← Finset.add_sum_erase _ _ (Finset.mem_univ i), hrest, Function.update_self,
    ← Finset.add_sum_erase _ _ (Finset.mem_univ i)]
  ring

theorem codes_update {nmax l : ℤ} {L : Fin n → ℤ} (h : ∀ j, 0 ≤ L j ∧ L j ≤ nmax) (hl0 : 0 ≤ l)
    (hl : l ≤ nmax) (j : Fin n) :
    0 ≤ Function.update L i l j ∧ Function.update L i l j ≤ nmax := by
  by_cases hj : j = i
  · subst hj
    rw [Function.update_self]
    exact ⟨hl0, hl⟩
  · rw [Function.update_of_ne hj]
    exact h j

/-- What becomes of the codes at one entry. -/
def Improves (x w : Fin n → ℚ) (i : Fin n) (s s' : Refinement n) : Prop :=
  s' = s ∨ ∃ l, l ≠ s.L i ∧ s'.L = Function.update s.L i l ∧ s'.error x w < s.error x w

theorem refineOne_eq (R : Rounding) (hx : ∀ i, 0 ≤ x i) (hnmax : 0 ≤ nmax)
    (hstore : ∀ z, 0 ≤ z → z ≤ nmax → store z = z) (s : Refinement n) (i : Fin n) :
    refineOne R store nmax x w s i = refineOne R id nmax x w s i := by
  rw [refineOne, refineOne]
  split
  case isFalse => rfl
  case isTrue hpos =>
    rw [divide_eq hpos.1.ne']
    simp only [Option.bind_eq_bind, Option.bind_some]
    have hcode := hstore _ (le_min hnmax
      (R.nonneg (div_nonneg (mul_nonneg (hx i) hpos.2.le) hpos.1.le))) (min_le_left _ _)
    rw [hcode, id_eq]

theorem refineOne_sound (R : Rounding) (hx : ∀ i, 0 ≤ x i) (hw : ∀ i, 0 ≤ w i) (hnmax : 0 ≤ nmax)
    (h : s.Sound nmax x w) (i : Fin n) :
    ∃ s', refineOne R id nmax x w s i = some s' ∧ s'.Sound nmax x w ∧ Improves x w i s s' := by
  rw [refineOne]
  split
  case isFalse => exact ⟨s, rfl, h, .inl rfl⟩
  case isTrue hpos =>
    rw [divide_eq hpos.1.ne']
    simp only [Option.bind_eq_bind, Option.bind_some, id_eq]
    have hl0 := le_min hnmax
      (R.nonneg (div_nonneg (mul_nonneg (hx i) hpos.2.le) hpos.1.le))
    have hlmax := min_le_left nmax (R.nearestInt
      (x i * (s.suml2 - w i * s.L i * s.L i) / (s.sumlx - w i * x i * s.L i)))
    generalize min nmax (R.nearestInt
      (x i * (s.suml2 - w i * s.L i * s.L i) / (s.sumlx - w i * x i * s.L i))) = l at *
    split
    case isFalse => exact ⟨s, rfl, h, .inl rfl⟩
    case isTrue hne =>
      split
      case isFalse => exact ⟨s, rfl, h, .inl rfl⟩
      case isTrue hlt =>
        have hnew2 : 0 < s.suml2 - w i * s.L i * s.L i + w i * l * l := by
          have hadd : 0 ≤ w i * l * l := by
            rw [mul_assoc]
            exact mul_nonneg (hw i) (mul_self_nonneg _)
          exact add_pos_of_pos_of_nonneg hpos.2 hadd
        have hold2 : 0 < s.suml2 := by
          have hprod := lt_of_le_of_lt (mul_nonneg (mul_self_nonneg s.sumlx) hnew2.le) hlt
          exact pos_of_mul_pos_right hprod (mul_self_nonneg _)
        have hsound : Refinement.Sound nmax x w ⟨Function.update s.L i l,
            s.sumlx - w i * x i * s.L i + w i * x i * l,
            s.suml2 - w i * s.L i * s.L i + w i * l * l, s.nChanged + 1⟩ := by
          refine ⟨codes_update h.codes hl0 hlmax, ?_, ?_⟩
          · rw [h.sumlx_eq]
            exact (sum_update (fun j z => w j * x j * z) s.L i l).symm
          · rw [h.suml2_eq]
            exact (sum_update (fun j z => w j * z * z) s.L i l).symm
        refine ⟨_, rfl, hsound, .inr ⟨l, hne, rfl, ?_⟩⟩
        rw [hsound.error_eq hnew2.ne', h.error_eq hold2.ne']
        exact sub_lt_sub_left ((div_lt_div_iff₀ hold2 hnew2).2 hlt) _

/-- A visit of one entry, or the start of another try. -/
inductive Visit (R : Rounding) (nmax : ℤ) (x w : Fin n → ℚ) : Refinement n → Refinement n → Prop
  | entry {s s' : Refinement n} (i : Fin n) :
    refineOne R toUInt8 nmax x w s i = some s' → Visit R nmax x w s s'
  | again (s : Refinement n) : Visit R nmax x w s { s with nChanged := 0 }

theorem Visit.sound {R : Rounding} (hx : ∀ i, 0 ≤ x i) (hw : ∀ i, 0 ≤ w i) (hnmax : 0 ≤ nmax)
    (h255 : nmax ≤ 255) (h : s.Sound nmax x w) (hv : Visit R nmax x w s s') :
    s'.Sound nmax x w := by
  cases hv with
  | entry i hone =>
    obtain ⟨t, ht, hsound, _⟩ := refineOne_sound R hx hw hnmax h i
    rw [refineOne_eq R hx hnmax fun z h0 hz => toUInt8_eq h0 (hz.trans h255), ht] at hone
    cases hone
    exact hsound
  | again => exact ⟨h.codes, h.sumlx_eq, h.suml2_eq⟩

theorem visits_sound {R : Rounding} (hx : ∀ i, 0 ≤ x i) (hw : ∀ i, 0 ≤ w i) (hnmax : 0 ≤ nmax)
    (h255 : nmax ≤ 255) (h : s.Sound nmax x w)
    (hv : Relation.ReflTransGen (Visit R nmax x w) s s') : s'.Sound nmax x w := by
  induction hv with
  | refl => exact h
  | tail _ hlast ih => exact hlast.sound hx hw hnmax h255 ih

/-- One pass over the entries is a run of visits. -/
theorem pass_visits (R : Rounding) (hx : ∀ i, 0 ≤ x i) (hw : ∀ i, 0 ≤ w i) (hnmax : 0 ≤ nmax)
    (h255 : nmax ≤ 255) (entries : List (Fin n)) (h : s.Sound nmax x w) :
    ∃ s', entries.foldlM (refineOne R toUInt8 nmax x w) s = some s' ∧
      entries.foldlM (refineOne R id nmax x w) s = some s' ∧
      Relation.ReflTransGen (Visit R nmax x w) s s' := by
  induction entries generalizing s with
  | nil => exact ⟨s, rfl, rfl, .refl⟩
  | cons i entries ih =>
    obtain ⟨t, ht, hsound, _⟩ := refineOne_sound R hx hw hnmax h i
    have ht' := ht
    rw [← refineOne_eq R hx hnmax fun z h0 hz => toUInt8_eq h0 (hz.trans h255)] at ht'
    obtain ⟨s', hs, hs', hrun⟩ := ih hsound
    rw [List.foldlM_cons, List.foldlM_cons, ht, ht']
    exact ⟨s', hs, hs', .head (.entry i ht') hrun⟩

/-- The refinement is a run of visits. -/
theorem refine_visits (R : Rounding) (hx : ∀ i, 0 ≤ x i) (hw : ∀ i, 0 ≤ w i) (hnmax : 0 ≤ nmax)
    (h255 : nmax ≤ 255) (tries : Nat) (h : s.Sound nmax x w) :
    ∃ s', refine R toUInt8 nmax x w tries s = some s' ∧ refine R id nmax x w tries s = some s' ∧
      Relation.ReflTransGen (Visit R nmax x w) s s' := by
  induction tries generalizing s with
  | zero => exact ⟨s, rfl, rfl, .refl⟩
  | succ tries ih =>
    have hagain : Visit R nmax x w s { s with nChanged := 0 } := .again s
    have hstart := hagain.sound hx hw hnmax h255 h
    obtain ⟨t, ht, ht', hrun⟩ := pass_visits R hx hw hnmax h255 (List.finRange n) hstart
    have hrun' := Relation.ReflTransGen.head hagain hrun
    rw [refine, refine, ht, ht']
    simp only [Option.bind_eq_bind, Option.bind_some]
    split
    case isTrue => exact ⟨t, rfl, rfl, hrun'⟩
    case isFalse =>
      obtain ⟨s', hs, hs', hrest⟩ := ih (visits_sound hx hw hnmax h255 h hrun')
      exact ⟨s', hs, hs', hrun'.trans hrest⟩

end Refine

/-! ### All of it -/

section Search
variable {x w : Fin n → ℚ}

theorem startRefinement_sound (R : Rounding) (hx : ∀ i, 0 ≤ x i) (hnmax : 0 ≤ nmax)
    (hstore : ∀ z, 0 ≤ z → z ≤ nmax → store z = z) (hiscale : 0 < iscale) :
    (startRefinement R store nmax x w iscale).Sound nmax x w ∧
      startRefinement R store nmax x w iscale = startRefinement R id nmax x w iscale := by
  have hl0 (i : Fin n) : 0 ≤ min nmax (R.nearestInt (iscale * x i)) :=
    le_min hnmax (R.nonneg (mul_nonneg hiscale.le (hx i)))
  have hcode (i : Fin n) := hstore _ (hl0 i) (min_le_left _ _)
  have hsame : startRefinement R store nmax x w iscale = startRefinement R id nmax x w iscale := by
    rw [startRefinement, startRefinement]
    simp only [hcode, id_eq]
  rw [hsame]
  exact ⟨⟨fun i => ⟨hl0 i, min_le_left _ _⟩, rfl, rfl⟩, rfl⟩

theorem makeQpQuants_sound (R : Rounding) (hx : ∀ i, 0 ≤ x i) (hw : ∀ i, 0 ≤ w i)
    (hnmax : 0 < nmax) (h255 : nmax ≤ 255) :
    (∃ scale L, makeQpQuants R toUInt8 nmax x w = some (scale, L) ∧
      makeQpQuants R id nmax x w = some (scale, L) ∧ ∀ i, 0 ≤ L i ∧ L i ≤ nmax) ∧
    ∀ iscale s, bestIscale R toUInt8 nmax x w (greatestOrZero x) = some iscale →
      Relation.ReflTransGen (Visit R nmax x w) (startRefinement R toUInt8 nmax x w iscale) s →
      ∀ i, ∃ s', refineOne R toUInt8 nmax x w s i = some s' ∧ Improves x w i s s' := by
  have hstore (z : ℤ) (h0 : 0 ≤ z) (hz : z ≤ nmax) := toUInt8_eq h0 (hz.trans h255)
  have hbest (hm : 0 < greatestOrZero x) :=
    bestIscale_eq (w := w) R hx (le_greatestOrZero x) hm hnmax hstore
  constructor
  · rw [makeQpQuants, makeQpQuants]
    split
    case isTrue => exact ⟨0, _, rfl, rfl, fun i => ⟨le_refl _, hnmax.le⟩⟩
    case isFalse hm =>
      have hpos : 0 < greatestOrZero x :=
        lt_of_lt_of_le (by rw [groupMaxEps]; norm_num) (not_lt.1 hm)
      obtain ⟨hsame, iscale, hiscale, hiscale0⟩ := hbest hpos
      obtain ⟨hstart, hstart'⟩ := startRefinement_sound (w := w) R hx hnmax.le hstore hiscale0
      obtain ⟨s, hs, hs', hrun⟩ := refine_visits R hx hw hnmax.le h255 5 hstart
      have hsound := visits_sound hx hw hnmax.le h255 hstart hrun
      rw [hsame, hiscale]
      simp only [Option.bind_eq_bind, Option.bind_some]
      rw [← hstart', hs, hs']
      simp only [Option.bind_some]
      split
      case isTrue hl2 =>
        rw [divide_eq hl2.ne']
        exact ⟨_, _, rfl, rfl, hsound.codes⟩
      case isFalse => exact ⟨0, _, rfl, rfl, hsound.codes⟩
  · intro iscale s hiscale hrun i
    have hpos : 0 < greatestOrZero x := by
      refine lt_of_le_of_ne (foldl_max_spec _ _).1 fun h0 => ?_
      rw [← h0, bestIscale, divide, if_pos rfl] at hiscale
      cases hiscale
    obtain ⟨hsame, iscale', hiscale', hiscale0⟩ := hbest hpos
    rw [hsame, hiscale'] at hiscale
    cases hiscale
    obtain ⟨hstart, _⟩ := startRefinement_sound (w := w) R hx hnmax.le hstore hiscale0
    have hsound := visits_sound hx hw hnmax.le h255 hstart hrun
    obtain ⟨s', hs', _, himproves⟩ := refineOne_sound R hx hw hnmax.le hsound i
    exact ⟨s', by rw [refineOne_eq R hx hnmax.le hstore, hs'], himproves⟩

end Search

end ActQuant.KQuant
