import Mathlib.Algebra.Order.Floor.Ring
import Mathlib.Data.Int.Log
import Mathlib.Data.Rat.Floor
import Mathlib.Tactic.FieldSimp
import Mathlib.Tactic.Linarith
import Mathlib.Tactic.Positivity
import Mathlib.Tactic.Ring

namespace ActQuant.Lib

section RoundEven
variable {q q' : ℚ} {m m' : ℤ}

/-- The nearest integer, and of two the even one. -/
def roundEven (q : ℚ) : ℤ :=
  if q - ⌊q⌋ < 1 / 2 ∨ q - ⌊q⌋ = 1 / 2 ∧ Even ⌊q⌋ then ⌊q⌋ else ⌊q⌋ + 1

/-- An integer is nearest, and even where another one is as near. -/
structure NearestEven (q : ℚ) (m : ℤ) : Prop where
  le : q ≤ m + 1 / 2
  ge : m - 1 / 2 ≤ q
  even : q = m + 1 / 2 ∨ q = m - 1 / 2 → Even m

theorem nearestEven_roundEven (q : ℚ) : NearestEven q (roundEven q) := by
  have hle := Int.floor_le q
  have hlt := Int.lt_floor_add_one q
  rw [roundEven]
  split
  case isTrue h =>
    refine ⟨?_, by linarith, ?_⟩
    · rcases h with h | h
      · linarith
      · linarith [h.1]
    · rintro (heq | heq)
      · rcases h with h | h
        · linarith
        · exact h.2
      · linarith
  case isFalse h =>
    rw [not_or, not_lt] at h
    have hcast : ((⌊q⌋ + 1 : ℤ) : ℚ) = ⌊q⌋ + 1 := by rw [Int.cast_add, Int.cast_one]
    refine ⟨by linarith, by linarith [h.1], ?_⟩
    rintro (heq | heq)
    · linarith
    · exact Int.even_add_one.2 fun heven => h.2 ⟨by linarith, heven⟩

theorem NearestEven.mono (h : NearestEven q m) (h' : NearestEven q' m') (hle : q ≤ q') :
    m ≤ m' := by
  by_contra hlt
  have hsucc : m' + 1 ≤ m := Int.add_one_le_of_lt (not_le.1 hlt)
  have hcast : (m' : ℚ) + 1 ≤ m := by exact_mod_cast hsucc
  -- both are next to the same half, and only one of them is even
  have hq : q = m - 1 / 2 := by linarith [h.ge, h'.le]
  have hq' : q' = m' + 1 / 2 := by linarith [h.ge, h'.le]
  have hm : m = m' + 1 := by
    have : (m : ℚ) = m' + 1 := by linarith
    exact_mod_cast this
  have heven : Even (m' + 1) := hm ▸ h.even (.inr hq)
  exact Int.even_add_one.1 heven (h'.even (.inl hq'))

theorem nearestEven_intCast (m : ℤ) : NearestEven m m where
  le := by linarith
  ge := by linarith
  even := by
    rintro (h | h) <;> linarith

theorem roundEven_mono (h : q ≤ q') : roundEven q ≤ roundEven q' :=
  (nearestEven_roundEven q).mono (nearestEven_roundEven q') h

theorem roundEven_intCast (m : ℤ) : roundEven m = m :=
  le_antisymm ((nearestEven_roundEven m).mono (nearestEven_intCast m) le_rfl)
    ((nearestEven_intCast m).mono (nearestEven_roundEven m) le_rfl)

end RoundEven

/-- A binary format: the digits of a mantissa, the least exponent of a last place, and the exponent
of the numbers that are too large. -/
structure FloatFormat where
  prec : ℕ
  emin : ℤ
  emax : ℤ
  prec_pos : 0 < prec

/-- The single precision. -/
def binary32 : FloatFormat := ⟨24, -149, 128, by decide⟩

/-- The half precision. -/
def binary16 : FloatFormat := ⟨11, -24, 16, by decide⟩

namespace FloatFormat
variable (F : FloatFormat) {q q' x y : ℚ}

/-- The exponent of the last place of a number. -/
def lastPlace (q : ℚ) : ℤ :=
  if q = 0 then F.emin else max F.emin (Int.log 2 |q| + 1 - F.prec)

/-- The nearest number of the format, whose size is not limited here. -/
def round (q : ℚ) : ℚ := roundEven (q / 2 ^ F.lastPlace q) * 2 ^ F.lastPlace q

/-- A number of the format, of any size. -/
def Representable (x : ℚ) : Prop :=
  ∃ m e : ℤ, |m| ≤ 2 ^ F.prec ∧ F.emin ≤ e ∧ x = m * 2 ^ e

variable {F}

theorem emin_le_lastPlace (q : ℚ) : F.emin ≤ F.lastPlace q := by
  rw [lastPlace]
  split
  · exact le_rfl
  · exact le_max_left _ _

/-- A number has at most as many digits before its last place as the format. -/
theorem abs_lt_zpow (q : ℚ) : |q| < 2 ^ (F.lastPlace q + F.prec) := by
  rw [lastPlace]
  split
  case isTrue h =>
    rw [h, abs_zero]
    exact zpow_pos two_pos _
  case isFalse =>
    have hlog := Int.lt_zpow_succ_log_self (b := 2) (by decide) |q|
    rw [Nat.cast_ofNat] at hlog
    refine hlog.trans_le (zpow_le_zpow_right₀ one_le_two ?_)
    have := le_max_right F.emin (Int.log 2 |q| + 1 - F.prec)
    omega

/-- Above the least exponent the first digit is one. -/
theorem zpow_le_abs (h : F.emin < F.lastPlace q) :
    2 ^ (F.lastPlace q + F.prec - 1) ≤ |q| := by
  rw [lastPlace] at h ⊢
  split
  case isTrue hq =>
    rw [if_pos hq] at h
    exact absurd h (lt_irrefl _)
  case isFalse hq =>
    rw [if_neg hq, lt_max_iff, or_iff_right (lt_irrefl _)] at h
    rw [max_eq_right h.le]
    have hlog := Int.zpow_log_le_self (b := 2) (by decide) (abs_pos.2 hq)
    rw [Nat.cast_ofNat] at hlog
    have hexp : Int.log 2 |q| + 1 - F.prec + F.prec - 1 = Int.log 2 |q| := by ring
    rwa [hexp]

theorem lastPlace_le {e : ℤ} (he : F.emin ≤ e) (h : |q| < 2 ^ (e + F.prec)) :
    F.lastPlace q ≤ e := by
  by_contra hlt
  have hge := zpow_le_abs (he.trans_lt (not_le.1 hlt))
  have hexp := (zpow_lt_zpow_iff_right₀ one_lt_two).1 (hge.trans_lt h)
  omega

theorem round_le_grid {m : ℤ} (h : q ≤ m * 2 ^ F.lastPlace q) :
    F.round q ≤ m * 2 ^ F.lastPlace q := by
  have hpos : (0 : ℚ) < 2 ^ F.lastPlace q := zpow_pos two_pos _
  have hle := roundEven_mono ((div_le_iff₀ hpos).2 h)
  rw [roundEven_intCast] at hle
  exact mul_le_mul_of_nonneg_right (by exact_mod_cast hle) hpos.le

theorem grid_le_round {m : ℤ} (h : m * 2 ^ F.lastPlace q ≤ q) :
    m * 2 ^ F.lastPlace q ≤ F.round q := by
  have hpos : (0 : ℚ) < 2 ^ F.lastPlace q := zpow_pos two_pos _
  have hle := roundEven_mono ((le_div_iff₀ hpos).2 h)
  rw [roundEven_intCast] at hle
  exact mul_le_mul_of_nonneg_right (by exact_mod_cast hle) hpos.le

/-- A power of two on the grid of the last place. -/
theorem zpow_eq_grid {e : ℤ} (h : F.lastPlace q ≤ e) :
    (2 : ℚ) ^ e = ((2 ^ (e - F.lastPlace q).toNat : ℤ) : ℚ) * 2 ^ F.lastPlace q := by
  rw [Int.cast_pow, Int.cast_ofNat, ← zpow_natCast, ← zpow_add₀ two_ne_zero]
  congr 1
  omega

theorem round_le_zpow {e : ℤ} (he : F.lastPlace q ≤ e) (h : q ≤ 2 ^ e) :
    F.round q ≤ 2 ^ e := by
  rw [zpow_eq_grid he] at h ⊢
  exact round_le_grid h

theorem zpow_le_round {e : ℤ} (he : F.lastPlace q ≤ e) (h : 2 ^ e ≤ q) :
    2 ^ e ≤ F.round q := by
  rw [zpow_eq_grid he] at h ⊢
  exact grid_le_round h

theorem round_nonneg (h : 0 ≤ q) : 0 ≤ F.round q := by
  have := grid_le_round (F := F) (q := q) (m := 0) (by rwa [Int.cast_zero, zero_mul])
  rwa [Int.cast_zero, zero_mul] at this

theorem round_zero : F.round 0 = 0 := by
  rw [round, zero_div, ← Int.cast_zero, roundEven_intCast, Int.cast_zero, zero_mul]

theorem lastPlace_neg (q : ℚ) : F.lastPlace (-q) = F.lastPlace q := by
  simp only [lastPlace, neg_eq_zero, abs_neg]

theorem roundEven_neg (q : ℚ) : roundEven (-q) = -roundEven q := by
  have hneg : NearestEven (-q) (-roundEven q) := by
    obtain ⟨hle, hge, heven⟩ := nearestEven_roundEven q
    have hcast : ((-roundEven q : ℤ) : ℚ) = -roundEven q := Int.cast_neg _
    refine ⟨by linarith, by linarith, ?_⟩
    rintro (heq | heq)
    · exact (heven (.inr (by linarith))).neg
    · exact (heven (.inl (by linarith))).neg
  exact le_antisymm ((nearestEven_roundEven _).mono hneg le_rfl)
    (hneg.mono (nearestEven_roundEven _) le_rfl)

theorem round_neg (q : ℚ) : F.round (-q) = -F.round q := by
  rw [round, lastPlace_neg, neg_div, roundEven_neg, Int.cast_neg, neg_mul, round]

theorem lastPlace_mono (hq : 0 < q) (h : q ≤ q') : F.lastPlace q ≤ F.lastPlace q' := by
  apply lastPlace_le (emin_le_lastPlace q')
  rw [abs_of_pos hq]
  exact (h.trans (le_abs_self q')).trans_lt (abs_lt_zpow q')

theorem round_mono_of_pos (hq : 0 < q) (h : q ≤ q') : F.round q ≤ F.round q' := by
  have hlast := lastPlace_mono (F := F) hq h
  rcases hlast.eq_or_lt with heq | hlt
  · have hpos : (0 : ℚ) < 2 ^ F.lastPlace q' := zpow_pos two_pos _
    rw [round, round, heq]
    refine mul_le_mul_of_nonneg_right ?_ hpos.le
    exact_mod_cast roundEven_mono (div_le_div_of_nonneg_right h hpos.le)
  · -- there is a power of two between them
    have hprec := F.prec_pos
    have hbelow := (le_abs_self q).trans (abs_lt_zpow (F := F) q).le
    have habove := zpow_le_abs ((emin_le_lastPlace q).trans_lt hlt)
    rw [abs_of_pos (hq.trans_le h)] at habove
    have hstep : (2 : ℚ) ^ (F.lastPlace q + F.prec) ≤ 2 ^ (F.lastPlace q' + F.prec - 1) :=
      zpow_le_zpow_right₀ one_le_two (by omega)
    exact (round_le_zpow (by omega) hbelow).trans (hstep.trans (zpow_le_round (by omega) habove))

theorem round_mono (h : q ≤ q') : F.round q ≤ F.round q' := by
  rcases lt_or_ge 0 q with hq | hq
  · exact round_mono_of_pos hq h
  · have hneg (x : ℚ) (hx : x ≤ 0) : F.round x ≤ 0 := by
      have := round_nonneg (F := F) (neg_nonneg.2 hx)
      rwa [round_neg, neg_nonneg] at this
    rcases le_or_gt 0 q' with hq' | hq'
    · exact (hneg q hq).trans (round_nonneg hq')
    · have := round_mono_of_pos (F := F) (neg_pos.2 hq') (neg_le_neg h)
      rwa [round_neg, round_neg, neg_le_neg_iff] at this

/-- The result is off by half of its last place at most. -/
theorem abs_round_sub_le (q : ℚ) : |F.round q - q| ≤ 2 ^ F.lastPlace q / 2 := by
  have hpos : (0 : ℚ) < 2 ^ F.lastPlace q := zpow_pos two_pos _
  obtain ⟨hle, hge, -⟩ := nearestEven_roundEven (q / 2 ^ F.lastPlace q)
  rw [div_le_iff₀ hpos, add_mul] at hle
  rw [le_div_iff₀ hpos, sub_mul] at hge
  rw [abs_le, round]
  constructor <;> linarith

theorem representable_round (q : ℚ) : F.Representable (F.round q) := by
  refine ⟨_, _, ?_, emin_le_lastPlace q, rfl⟩
  have hpos : (0 : ℚ) < 2 ^ F.lastPlace q := zpow_pos two_pos _
  have hlt := abs_lt_zpow (F := F) q
  rw [add_comm, zpow_add₀ two_ne_zero, zpow_natCast, ← div_lt_iff₀ hpos, ← abs_of_pos hpos,
    ← abs_div, abs_lt] at hlt
  have hcast : (2 : ℚ) ^ F.prec = ((2 ^ F.prec : ℤ) : ℚ) := by
    rw [Int.cast_pow, Int.cast_ofNat]
  rw [hcast, ← Int.cast_neg] at hlt
  have hge := roundEven_mono hlt.1.le
  have hle := roundEven_mono hlt.2.le
  rw [roundEven_intCast] at hge hle
  exact abs_le.2 ⟨hge, hle⟩

theorem round_of_grid {m e : ℤ} (hx : x = m * 2 ^ e) (he : F.lastPlace x ≤ e) :
    F.round x = x := by
  have hne : (2 : ℚ) ^ F.lastPlace x ≠ 0 := zpow_ne_zero _ two_ne_zero
  have hgrid : x = ((m * 2 ^ (e - F.lastPlace x).toNat : ℤ) : ℚ) * 2 ^ F.lastPlace x := by
    rw [Int.cast_mul, mul_assoc, ← zpow_eq_grid he]
    exact hx
  rw [round, div_eq_of_eq_mul hne hgrid, roundEven_intCast]
  exact hgrid.symm

theorem abs_intCast_mul_zpow (m e : ℤ) : |(m : ℚ) * 2 ^ e| = |m| * 2 ^ e := by
  rw [abs_mul, abs_of_pos (zpow_pos (two_pos (α := ℚ)) e), Int.cast_abs]

theorem round_of_representable (h : F.Representable x) : F.round x = x := by
  obtain ⟨m, e, hm, he, hx⟩ := h
  have hpow (e : ℤ) : (0 : ℚ) < 2 ^ e := zpow_pos two_pos e
  have habs : |x| = |m| * 2 ^ e := by rw [hx, abs_intCast_mul_zpow]
  rcases hm.lt_or_eq with hlt | heq
  · refine round_of_grid hx (lastPlace_le he ?_)
    rw [habs, add_comm, zpow_add₀ two_ne_zero, zpow_natCast]
    exact mul_lt_mul_of_pos_right (by exact_mod_cast hlt) (hpow e)
  · -- a mantissa of one digit more ends with a zero
    have heven : Even m := by
      rw [← even_abs, heq]
      exact (Int.even_pow.2 ⟨even_two, F.prec_pos.ne'⟩)
    obtain ⟨k, rfl⟩ := heven
    have hx' : x = k * 2 ^ (e + 1) := by
      rw [hx, zpow_add_one₀ two_ne_zero, Int.cast_add]
      ring
    refine round_of_grid hx' (lastPlace_le (by omega) ?_)
    rw [habs, heq, Int.cast_pow, Int.cast_ofNat, ← zpow_natCast, ← zpow_add₀ two_ne_zero]
    exact zpow_lt_zpow_right₀ one_lt_two (by omega)

theorem representable_zpow {e : ℤ} (he : F.emin ≤ e) : F.Representable (2 ^ e) :=
  ⟨1, e, by rw [abs_one]; exact one_le_pow₀ one_le_two, he, by rw [Int.cast_one, one_mul]⟩

/-- A number of a size is a multiple of the last place of that size. -/
theorem Representable.exists_grid (h : F.Representable x) {e : ℤ} (he : e = F.emin ∨
    2 ^ (e + F.prec) < |x|) : ∃ m : ℤ, x = m * 2 ^ e := by
  obtain ⟨m, e', hm, he', rfl⟩ := h
  have hle : e ≤ e' := by
    rcases he with rfl | hlt
    · exact he'
    · have hsize : |(m : ℚ) * 2 ^ e'| ≤ 2 ^ (e' + F.prec) := by
        rw [abs_intCast_mul_zpow, add_comm, zpow_add₀ two_ne_zero, zpow_natCast]
        exact mul_le_mul_of_nonneg_right (by exact_mod_cast hm) (zpow_pos two_pos _).le
      have := (zpow_lt_zpow_iff_right₀ one_lt_two).1 (hlt.trans_le hsize)
      omega
  refine ⟨m * 2 ^ (e' - e).toNat, ?_⟩
  rw [Int.cast_mul, mul_assoc, Int.cast_pow, Int.cast_ofNat, ← zpow_natCast,
    ← zpow_add₀ two_ne_zero]
  congr 2
  omega

theorem le_abs_of_grid {m e : ℤ} (hx : x = m * 2 ^ e) (hne : x ≠ 0) : 2 ^ e ≤ |x| := by
  have hpos : (0 : ℚ) < 2 ^ e := zpow_pos two_pos e
  have hm : 1 ≤ |m| := Int.one_le_abs fun h => hne (by rw [hx, h, Int.cast_zero, zero_mul])
  rw [hx, abs_intCast_mul_zpow]
  exact le_mul_of_one_le_left hpos.le (by exact_mod_cast hm)

theorem abs_round (q : ℚ) : |F.round q| = F.round |q| := by
  rcases le_total 0 q with h | h
  · rw [abs_of_nonneg h, abs_of_nonneg (round_nonneg h)]
  · have := round_nonneg (F := F) (neg_nonneg.2 h)
    rw [round_neg, neg_nonneg] at this
    rw [abs_of_nonpos h, abs_of_nonpos this, round_neg]

/-- What is no less than a number of the format does not get less by rounding. -/
theorem le_abs_round (hx : F.Representable x) (h : x ≤ |q|) : x ≤ |F.round q| := by
  rw [abs_round, ← round_of_representable hx]
  exact round_mono h

/-- Only zero is rounded to zero among the sums of numbers of the format. -/
theorem round_add_eq_zero (hx : F.Representable x) (hy : F.Representable y) :
    F.round (x + y) = 0 ↔ x + y = 0 := by
  refine ⟨fun h => ?_, fun h => by rw [h, round_zero]⟩
  by_contra hne
  obtain ⟨m, hm⟩ := hx.exists_grid (.inl rfl)
  obtain ⟨k, hk⟩ := hy.exists_grid (.inl rfl)
  have hsum : x + y = (m + k : ℤ) * 2 ^ F.emin := by
    rw [hm, hk, Int.cast_add, add_mul]
  have hle := le_abs_round (representable_zpow le_rfl) (le_abs_of_grid hsum hne)
  rw [h, abs_zero] at hle
  exact absurd hle (not_le.2 (zpow_pos two_pos _))

/-- A number is halved exactly unless it has the least exponent. -/
theorem Representable.half (h : F.Representable x)
    (hsize : x = 0 ∨ 2 ^ (F.emin + F.prec) < |x|) : F.Representable (x / 2) := by
  obtain ⟨m, e, hm, he, hx⟩ := h
  rcases hsize with rfl | hlt
  · exact ⟨0, F.emin, by rw [abs_zero]; positivity, le_rfl, by simp⟩
  · have hne : e ≠ F.emin := by
      rintro rfl
      rw [hx, abs_intCast_mul_zpow, add_comm, zpow_add₀ two_ne_zero, zpow_natCast] at hlt
      have := lt_of_mul_lt_mul_right hlt (zpow_pos two_pos _).le
      exact absurd hm (not_le.2 (by exact_mod_cast this))
    refine ⟨m, e - 1, hm, by omega, ?_⟩
    rw [hx, zpow_sub_one₀ two_ne_zero]
    ring

variable (F) in
/-- A number of the format; there is none for an infinity or what is not a number. -/
def Value : Type := {x : Option ℚ // ∀ q ∈ x, F.Representable q ∧ |q| < 2 ^ F.emax}

namespace Value

instance : DecidableEq F.Value := inferInstanceAs (DecidableEq (Subtype _))

variable (F) in
/-- The result of an operation, which may be too large. -/
def ofRat (q : ℚ) : F.Value :=
  ⟨if |F.round q| < 2 ^ F.emax then some (F.round q) else none, by
    intro x hx
    split at hx
    case isTrue h =>
      cases hx
      exact ⟨representable_round q, h⟩
    case isFalse => cases hx⟩

/-- An operation of the machine, which is not finite where an operand is not. -/
def lift (f : ℚ → ℚ → ℚ) (x y : F.Value) : F.Value :=
  match x.1, y.1 with
  | some x, some y => ofRat F (f x y)
  | _, _ => ⟨none, fun _ h => by cases h⟩

instance : Zero F.Value := ⟨ofRat F 0⟩
instance : Add F.Value := ⟨lift (· + ·)⟩
instance : Sub F.Value := ⟨lift (· - ·)⟩
instance : Mul F.Value := ⟨lift (· * ·)⟩

/-- The quotient by a number that is finite and not zero. -/
def divBy (x : F.Value) (d : ℚ) : F.Value := lift (· / ·) x (ofRat F d)

theorem val_ofRat_eq_some {r : ℚ} :
    (ofRat F q).1 = some r ↔ F.round q = r ∧ |r| < 2 ^ F.emax := by
  change (if |F.round q| < 2 ^ F.emax then some (F.round q) else none) = some r ↔ _
  split
  case isTrue h =>
    rw [Option.some_inj]
    exact ⟨fun heq => ⟨heq, heq ▸ h⟩, And.left⟩
  case isFalse h =>
    refine iff_of_false (fun hnone => by cases hnone) ?_
    rintro ⟨rfl, hlt⟩
    exact h hlt

theorem eq_zero_iff {x : F.Value} : x = 0 ↔ x.1 = some 0 := by
  have hzero : (0 : F.Value).1 = some 0 :=
    val_ofRat_eq_some.2 ⟨round_zero, by rw [abs_zero]; exact zpow_pos two_pos _⟩
  rw [← hzero]
  exact Subtype.val_inj.symm

theorem val_lift_eq_some {f : ℚ → ℚ → ℚ} {x y : F.Value} {r : ℚ} :
    (lift f x y).1 = some r ↔ ∃ a b, x.1 = some a ∧ y.1 = some b ∧
      F.round (f a b) = r ∧ |r| < 2 ^ F.emax := by
  rw [lift]
  cases x.1 with
  | none => simp
  | some a =>
    cases y.1 with
    | none => simp
    | some b => simp [val_ofRat_eq_some]

/-- Only opposite numbers have the sum zero. -/
theorem add_eq_zero_iff {x y : F.Value} :
    x + y = 0 ↔ ∃ a, x.1 = some a ∧ y.1 = some (-a) := by
  rw [eq_zero_iff]
  change (lift _ x y).1 = _ ↔ _
  rw [val_lift_eq_some]
  constructor
  · rintro ⟨a, b, hx, hy, hround, -⟩
    have hsum := (round_add_eq_zero (x.2 a hx).1 (y.2 b hy).1).1 hround
    exact ⟨a, hx, by rw [hy, eq_neg_of_add_eq_zero_right hsum]⟩
  · rintro ⟨a, hx, hy⟩
    refine ⟨a, -a, hx, hy, by rw [add_neg_cancel, round_zero], ?_⟩
    rw [abs_zero]
    exact zpow_pos two_pos _

end Value
end FloatFormat
end ActQuant.Lib
