import ActQuant.Lib.FloatFormat
import ActQuant.Lib.Lists
import ActQuant.Lib.Ndarray

namespace ActQuant.Pi05
open ActQuant.Lib

section Policy

/-- The numbers of the arrays, of the type `np.float32`. -/
abbrev Single : Type := binary32.Value

/-- The statistics of `load_norm_stats`. -/
inductive NormStats where
  | quantile (q01 q99 : List Single)
  | meanStd (mean std : List Single)

/-- `unnormalize_actions_mean_std`, for a row of the actions. -/
def unnormalizeActionsMeanStd (actions mean std : List Single) : Option (List Single) := do
  let mean := mean.take actions.length
  let std := std.take actions.length
  let scaled ← broadcast (· * ·) actions (std.map (· + .ofRat _ (1 / 10 ^ 8)))
  broadcast (· + ·) scaled mean

/-- `unnormalize_actions_quantile`, for a row of the actions. -/
def unnormalizeActionsQuantile (actions q01 q99 : List Single) : Option (List Single) := do
  let q01 := q01.take actions.length
  let q99 := q99.take actions.length
  let range ← broadcast (· - ·) q99 q01
  let scaled ← broadcast (· * ·) (actions.map fun x => (x + .ofRat _ 1).divBy 2)
    (range.map (· + .ofRat _ (1 / 10 ^ 6)))
  broadcast (· + ·) scaled q01

def NormStats.unnormalize (actions : List Single) : NormStats → Option (List Single)
  | .quantile q01 q99 => unnormalizeActionsQuantile actions q01 q99
  | .meanStd mean std => unnormalizeActionsMeanStd actions mean std

/-- `Pi05Pipeline`, whose runs raise an exception on failure. -/
structure Pipeline (Image : Type) where
  actionHorizon : Nat
  actionDim : Nat
  run : Image → List Char → Option (List Single)
  runMulti : Image → Image → List Char → Option (List Single)

/-- An observation, with what the policy looks at in an image. -/
structure Observation (Image : Type) where
  images : List Char → Option Image
  prompt : List Char
  nonempty : Image → Bool
  toUint8 : Image → Option Image

/-- `actions_flat.reshape(rows, cols)`. -/
def toRows (rows cols : Nat) (flat : List Single) : List (List Single) :=
  (List.range rows).map fun i => (flat.drop (i * cols)).take cols

/-- `self.action_dim`. -/
def policyActionDim : Nat := 7

/-- The raw actions, with as many columns as the policy has dimensions if the model has. -/
def rawActions (horizon modelActionDim : Nat) (actionsFlat : List Single) :
    Option (List (List Single)) :=
  let expectedSize := horizon * modelActionDim
  if expectedSize ≤ actionsFlat.length then
    some ((toRows horizon modelActionDim (actionsFlat.take expectedSize)).map
      (·.take policyActionDim))
  else if horizon = 0 ∨ actionsFlat.length % horizon ≠ 0 then none
  else
    some ((toRows horizon (actionsFlat.length / horizon) actionsFlat).map fun row =>
      row.take policyActionDim ++ List.replicate (policyActionDim - row.length) 0)

/-- The logs read the least and the greatest action, and raise an error where there is none. -/
def logged (actions : List (List Single)) : Option (List (List Single)) :=
  if actions.flatten = [] then none else some actions

variable {Image : Type}

/-- The inference for an observation, which may fail. -/
def native (pipeline : Pipeline Image) (obs : Observation Image) (baseImage : Image) :
    Option (List Single) :=
  let wristImage := (obs.images "observation/wrist_image".toList).or
    (obs.images "wrist_image".toList)
  match wristImage.filter obs.nonempty with
  | some wristImage =>
    (obs.toUint8 wristImage).bind fun wristImage =>
      pipeline.runMulti baseImage wristImage obs.prompt
  | none => pipeline.run baseImage obs.prompt

/-- The base image, without which there is an error. -/
def Observation.baseImage (obs : Observation Image) : Option Image :=
  ((obs.images "observation/image".toList).or (obs.images "image".toList)).bind obs.toUint8

/-- `infer`: the actions it returns, unless it raises an error. -/
def infer (normStats : Option NormStats) (pipeline : Pipeline Image) (obs : Observation Image) :
    Option (List (List Single)) := do
  let baseImage ← obs.baseImage
  let horizon := pipeline.actionHorizon
  -- Zero actions on failure.
  let actionsFlat := (native pipeline obs baseImage).getD
    (List.replicate (horizon * policyActionDim) 0)
  let actions ← rawActions horizon pipeline.actionDim actionsFlat
  let actions ← logged actions
  match normStats with
  | none => some actions
  | some normStats => do
    let actions ← actions.mapM normStats.unnormalize
    logged actions

end Policy

section Failure

/-- The columns of the actions. -/
def usedDims (modelActionDim : Nat) : Nat := min policyActionDim modelActionDim

/-- The statistics take zero to zero in every column. -/
def NormStats.KeepZero (dims : Nat) : NormStats → Prop
  | .quantile q01 q99 => ∀ i < dims, ∃ low : ℚ, (stretched (q01.take dims) i).1 = some low ∧
      (stretched (q99.take dims) i - stretched (q01.take dims) i + .ofRat _ (1 / 10 ^ 6)).1 =
        some (-2 * low)
  | .meanStd mean std => ∀ i < dims, stretched (mean.take dims) i = 0 ∧
      (stretched (std.take dims) i + .ofRat _ (1 / 10 ^ 8)).1.isSome

theorem stretched_replicate_zero (n i : Nat) :
    stretched (List.replicate n (0 : Single)) i = 0 := by
  rw [stretched, List.getD_eq_getElem?_getD, List.getElem?_replicate]
  split <;> split <;> rfl

theorem stretched_map {xs : List Single} {g : Single → Single}
    (hi : i < xs.length ∨ xs.length = 1) : stretched (xs.map g) i = g (stretched xs i) := by
  rw [stretched, stretched, List.length_map]
  split
  case isTrue h => exact getD_map_of_lt (by omega)
  case isFalse h => exact getD_map_of_lt (by omega)

theorem mem_iff_stretched {xs : List Single} :
    (∀ x ∈ xs, x = 0) ↔ ∀ i < xs.length, stretched xs i = 0 := by
  have hentry (i : Nat) (hi : i < xs.length) : stretched xs i = xs[i] := by
    have hplace : (if xs.length = 1 then 0 else i) = i := by
      split
      case isTrue h => omega
      case isFalse h => rfl
    rw [stretched, hplace, List.getD_eq_getElem?_getD, List.getElem?_eq_getElem hi,
      Option.getD_some]
  constructor
  · intro h i hi
    rw [hentry i hi]
    exact h _ (List.getElem_mem hi)
  · intro h x hx
    obtain ⟨i, hi, rfl⟩ := List.mem_iff_getElem.1 hx
    rw [← hentry i hi]
    exact h i hi

open FloatFormat Value

/-- The mean is what is left of zero, unless the scale is infinite. -/
theorem zero_mul_add_eq_zero {std mean : Single} :
    0 * std + mean = 0 ↔ mean = 0 ∧ std.1.isSome := by
  have hprod (a : ℚ) : (0 * std).1 = some a ↔ std.1.isSome ∧ a = 0 := by
    change (lift _ 0 std).1 = _ ↔ _
    rw [val_lift_eq_some, Option.isSome_iff_exists]
    constructor
    · rintro ⟨z, b, hz, hb, rfl, -⟩
      rw [eq_zero_iff.1 rfl, Option.some_inj] at hz
      exact ⟨⟨b, hb⟩, by rw [← hz, zero_mul, round_zero]⟩
    · rintro ⟨⟨b, hb⟩, rfl⟩
      refine ⟨0, b, eq_zero_iff.1 rfl, hb, by rw [zero_mul, round_zero], ?_⟩
      rw [abs_zero]
      exact zpow_pos two_pos _
  rw [add_eq_zero_iff, eq_zero_iff]
  simp only [hprod]
  constructor
  · rintro ⟨a, ⟨hstd, rfl⟩, hmean⟩
    exact ⟨by rwa [neg_zero] at hmean, hstd⟩
  · rintro ⟨hmean, hstd⟩
    exact ⟨0, ⟨hstd, rfl⟩, by rwa [neg_zero]⟩

/-- A range with the small number added is zero or far from the least numbers of the format. -/
theorem half_range {d : ℚ} (hd : binary32.Representable d) :
    binary32.Representable (binary32.round (d + 8796093 / 2 ^ 43) / 2) := by
  have hsize : d + 8796093 / 2 ^ 43 = 0 ∨ (2 : ℚ) ^ (-45 : ℤ) ≤ |d + 8796093 / 2 ^ 43| := by
    by_cases hlarge : (2 : ℚ) ^ ((-45 : ℤ) + (binary32.prec : ℤ)) < |d|
    · -- the sum is on the grid of the larger one
      obtain ⟨m, hm⟩ := hd.exists_grid (.inr hlarge)
      have hsum : d + 8796093 / 2 ^ 43 = ((m + 35184372 : ℤ) : ℚ) * 2 ^ (-45 : ℤ) := by
        rw [hm, Int.cast_add]
        norm_num
        ring
      exact or_iff_not_imp_left.2 (le_abs_of_grid hsum)
    · right
      have hexp : (2 : ℚ) ^ ((-45 : ℤ) + (binary32.prec : ℤ)) = 1 / 2 ^ 21 := by decide +kernel
      rw [hexp, not_lt, abs_le] at hlarge
      refine le_trans ?_ (le_abs_self _)
      norm_num at hlarge ⊢
      linarith [hlarge.1]
  apply (representable_round _).half
  rcases hsize with hzero | hle
  · rw [hzero, round_zero]
    exact .inl rfl
  · have hrep : binary32.Representable (2 ^ (-45 : ℤ)) := representable_zpow (by decide)
    exact .inr (lt_of_lt_of_le (by decide +kernel) (le_abs_round hrep hle))

/-- Half of a range and the lower end. -/
theorem half_mul_add_eq_zero {low range : Single} :
    ((0 : Single) + .ofRat _ 1).divBy 2 * (range + .ofRat _ (1 / 10 ^ 6)) + low = 0 ↔
      ∃ q : ℚ, low.1 = some q ∧ (range + .ofRat _ (1 / 10 ^ 6)).1 = some (-2 * q) := by
  have hhalf : (((0 : Single) + .ofRat _ 1).divBy 2).1 = some (1 / 2) := by decide +kernel
  have heps : (ofRat binary32 (1 / 10 ^ 6)).1 = some (8796093 / 2 ^ 43) := by decide +kernel
  have hprod (a : ℚ) : (((0 : Single) + .ofRat _ 1).divBy 2 *
      (range + .ofRat _ (1 / 10 ^ 6))).1 = some a ↔
      (range + .ofRat _ (1 / 10 ^ 6)).1 = some (2 * a) := by
    change (lift _ _ _).1 = _ ↔ _
    rw [val_lift_eq_some, hhalf]
    have hexact (b : ℚ) (hb : (range + .ofRat _ (1 / 10 ^ 6)).1 = some b) :
        binary32.round (1 / 2 * b) = b / 2 := by
      obtain ⟨d, e, hd, he, rfl, -⟩ := val_lift_eq_some.1 hb
      rw [heps, Option.some_inj] at he
      rw [← he, one_div_mul_eq_div]
      exact round_of_representable (half_range (range.2 d hd).1)
    constructor
    · rintro ⟨x, b, hx, hb, hround, -⟩
      rw [Option.some_inj] at hx
      rw [← hx, hexact b hb] at hround
      rw [hb, ← hround, mul_div_cancel₀ _ two_ne_zero]
    · intro hb
      have hround := hexact _ hb
      rw [mul_div_cancel_left₀ _ two_ne_zero] at hround
      refine ⟨1 / 2, 2 * a, rfl, hb, hround, ?_⟩
      have hlt := ((range + .ofRat _ (1 / 10 ^ 6) : Single).2 _ hb).2
      rw [abs_mul, abs_two] at hlt
      linarith [abs_nonneg a]
  rw [add_eq_zero_iff]
  simp only [hprod]
  constructor
  · rintro ⟨a, hrange, hlow⟩
    exact ⟨-a, hlow, by rw [hrange, neg_mul_neg]⟩
  · rintro ⟨q, hlow, hrange⟩
    exact ⟨-q, by rw [hrange, neg_mul, mul_neg], by rw [hlow, neg_neg]⟩

theorem unnormalizeMeanStd_zero {mean std : List Single}
    (h : unnormalizeActionsMeanStd (List.replicate n 0) mean std = some row) (hne : row ≠ []) :
    row.length = n ∧ ∀ i < n, stretched row i =
      0 * (stretched (std.take n) i + .ofRat _ (1 / 10 ^ 8)) + stretched (mean.take n) i := by
  rw [unnormalizeActionsMeanStd, List.length_replicate] at h
  obtain ⟨scaled, hscaled, h⟩ := Option.bind_eq_some_iff.1 h
  have hlen := length_broadcast hscaled
  have hlen' := length_broadcast h
  have hcompat := compatible_of_broadcast hscaled
  have hpos := List.length_pos_of_ne_nil hne
  rw [List.length_replicate, List.length_map] at hlen hcompat
  rw [List.length_take] at hlen'
  have hn : row.length = n ∧ (scaled.length = n ∨ scaled.length = 1) ∧
      ((std.take n).length = n ∨ (std.take n).length = 1) := by
    rw [List.length_take] at hlen hcompat ⊢
    split at hlen <;> split at hlen' <;> omega
  refine ⟨hn.1, fun i hi => ?_⟩
  rw [stretched_broadcast h (.inl (hn.1 ▸ hi)),
    stretched_broadcast hscaled (hn.2.1.imp_left (· ▸ hi)), stretched_replicate_zero,
    stretched_map (hn.2.2.imp_left fun h => by rwa [h])]

theorem unnormalizeQuantile_zero {q01 q99 : List Single}
    (h : unnormalizeActionsQuantile (List.replicate n 0) q01 q99 = some row) (hne : row ≠ []) :
    row.length = n ∧ ∀ i < n, stretched row i =
      ((0 : Single) + .ofRat _ 1).divBy 2 * (stretched (q99.take n) i - stretched (q01.take n) i +
        .ofRat _ (1 / 10 ^ 6)) + stretched (q01.take n) i := by
  rw [unnormalizeActionsQuantile, List.length_replicate, List.map_replicate] at h
  obtain ⟨range, hrange, h⟩ := Option.bind_eq_some_iff.1 h
  obtain ⟨scaled, hscaled, h⟩ := Option.bind_eq_some_iff.1 h
  have hlen := length_broadcast hrange
  have hlen' := length_broadcast hscaled
  have hlen'' := length_broadcast h
  have hcompat := compatible_of_broadcast hscaled
  have hpos := List.length_pos_of_ne_nil hne
  rw [List.length_take, List.length_take] at hlen
  rw [List.length_replicate, List.length_map] at hlen' hcompat
  rw [List.length_take] at hlen''
  have hn : row.length = n ∧ (scaled.length = n ∨ scaled.length = 1) ∧
      (range.length = n ∨ range.length = 1) := by
    split at hlen <;> split at hlen' <;> split at hlen'' <;> omega
  refine ⟨hn.1, fun i hi => ?_⟩
  have hhalf (x : Single) : stretched (List.replicate n x) i = x := by
    rw [stretched, List.length_replicate, List.getD_eq_getElem?_getD, List.getElem?_replicate_of_lt]
    · rfl
    · split <;> omega
  rw [stretched_broadcast h (.inl (hn.1 ▸ hi)),
    stretched_broadcast hscaled (hn.2.1.imp_left (· ▸ hi)),
    stretched_map (hn.2.2.imp_left (· ▸ hi)),
    stretched_broadcast hrange (hn.2.2.imp_left (· ▸ hi)), hhalf]

/-- Un-normalising keeps a row of zeros just where the statistics take zero to zero. -/
theorem unnormalize_zero_iff {normStats : NormStats}
    (h : normStats.unnormalize (List.replicate n 0) = some row) (hne : row ≠ []) :
    (∀ x ∈ row, x = 0) ↔ normStats.KeepZero n := by
  rw [mem_iff_stretched]
  cases normStats with
  | quantile q01 q99 =>
    obtain ⟨hlen, hentry⟩ := unnormalizeQuantile_zero h hne
    rw [hlen]
    refine forall₂_congr fun i hi => ?_
    rw [hentry i hi, half_mul_add_eq_zero]
  | meanStd mean std =>
    obtain ⟨hlen, hentry⟩ := unnormalizeMeanStd_zero h hne
    rw [hlen]
    refine forall₂_congr fun i hi => ?_
    rw [hentry i hi, zero_mul_add_eq_zero]

theorem toRows_replicate {rows cols total : Nat} (h : rows * cols ≤ total) :
    toRows rows cols (List.replicate total 0) =
      List.replicate rows (List.replicate cols 0) := by
  refine List.eq_replicate_iff.2 ⟨(List.length_map _).trans List.length_range, ?_⟩
  intro row hrow
  obtain ⟨i, hi, rfl⟩ := List.mem_map.1 hrow
  have hle : (i + 1) * cols ≤ rows * cols := Nat.mul_le_mul_right _ (List.mem_range.1 hi)
  rw [Nat.add_one_mul] at hle
  rw [List.drop_replicate, List.take_replicate, Nat.min_eq_left (by omega)]

/-- The zero actions are rows of zeros, one for each column used. -/
theorem rawActions_zero (h : rawActions horizon modelActionDim
    (List.replicate (horizon * policyActionDim) 0) = some actions) :
    actions = List.replicate horizon (List.replicate (usedDims modelActionDim) 0) := by
  simp only [rawActions, List.length_replicate] at h
  split at h
  case isTrue hle =>
    cases h
    rw [List.take_replicate, Nat.min_eq_left hle, toRows_replicate (Nat.le_refl _),
      List.map_replicate, List.take_replicate, usedDims]
  case isFalse hgt =>
    split at h
    case isTrue => cases h
    case isFalse hhorizon =>
      cases h
      have hpos : 0 < horizon := by omega
      have hdim : policyActionDim ≤ modelActionDim :=
        Nat.le_of_mul_le_mul_left (Nat.le_of_lt (Nat.lt_of_not_le hgt)) hpos
      rw [Nat.mul_div_cancel_left _ hpos, toRows_replicate (Nat.le_refl _), List.map_replicate,
        List.take_replicate, List.length_replicate, Nat.sub_self, Nat.min_self, usedDims,
        Nat.min_eq_left hdim]
      exact congrArg (List.replicate horizon) (List.append_nil _)

theorem logged_eq_some (h : logged actions = some actions') :
    actions' = actions ∧ actions.flatten ≠ [] := by
  rw [logged] at h
  split at h
  case isTrue => cases h
  case isFalse hne =>
    cases h
    exact ⟨rfl, hne⟩

/-- After a failed inference the actions are zero just where the statistics take zero to zero. -/
theorem infer_zero_iff {pipeline : Pipeline Image} {obs : Observation Image}
    {normStats : Option NormStats} (hfail : obs.baseImage.bind (native pipeline obs) = none)
    (h : infer normStats pipeline obs = some actions) :
    (∀ row ∈ actions, ∀ x ∈ row, x = 0) ↔
      ∀ stats, normStats = some stats → stats.KeepZero (usedDims pipeline.actionDim) := by
  obtain ⟨image, himage, hinfer⟩ := Option.bind_eq_some_iff.1 h
  rw [himage, Option.bind_some] at hfail
  simp only [hfail, Option.getD_none] at hinfer
  obtain ⟨raw, hraw, hrest⟩ := Option.bind_eq_some_iff.1 hinfer
  obtain ⟨raw', hlogged, hresult⟩ := Option.bind_eq_some_iff.1 hrest
  clear h hinfer hrest
  obtain ⟨rfl, hne⟩ := logged_eq_some hlogged
  obtain rfl := rawActions_zero hraw
  cases normStats with
  | none =>
    cases hresult
    refine iff_of_true (fun row hrow x hx => ?_) fun stats hstats => by cases hstats
    rw [List.eq_of_mem_replicate hrow] at hx
    exact List.eq_of_mem_replicate hx
  | some stats =>
    obtain ⟨rows, hrows, hlogged'⟩ := Option.bind_eq_some_iff.1 hresult
    obtain ⟨rfl, hne'⟩ := logged_eq_some hlogged'
    have hpos : pipeline.actionHorizon ≠ 0 := by
      intro hzero
      rw [hzero] at hne
      exact hne rfl
    obtain ⟨row, hrow⟩ := isSome_of_mapM hrows (List.mem_replicate.2 ⟨hpos, rfl⟩)
    obtain rfl : List.replicate pipeline.actionHorizon row = actions := by
      rw [mapM_eq_some_map (g := fun _ => row) fun r hr => by
        rw [List.eq_of_mem_replicate hr, hrow], List.map_replicate] at hrows
      exact Option.some.inj hrows
    have hrow' : row ≠ [] := by
      rintro rfl
      rw [List.flatten_replicate_nil] at hne'
      exact hne' rfl
    simp only [Option.some.injEq, forall_eq', List.mem_replicate, hpos, ne_eq, not_false_eq_true,
      true_and, forall_eq]
    exact unnormalize_zero_iff hrow hrow'

/-- A model of one action of 32 dimensions, whose every run fails. -/
def failingPipeline : Pipeline Unit := ⟨1, 32, fun _ _ => none, fun _ _ _ => none⟩

def blankObservation : Observation Unit := ⟨fun _ => some (), [], fun _ => true, some⟩

/-- Percentiles whose range with the small number added is rounded to twice the lower one. -/
theorem infer_zero_iff_failing :
    ∃ actions, infer (some (.quantile (List.replicate 7 (.ofRat _ (-16)))
      (List.replicate 7 (.ofRat _ 16)))) failingPipeline blankObservation = some actions ∧
        ∀ row ∈ actions, ∀ x ∈ row, x = 0 := by
  have hrun : infer (some (.quantile (List.replicate 7 (.ofRat _ (-16)))
      (List.replicate 7 (.ofRat _ 16)))) failingPipeline blankObservation =
        some [List.replicate 7 0] := by decide +kernel
  refine ⟨_, hrun, (infer_zero_iff rfl hrun).2 fun stats hstats => ?_⟩
  cases hstats
  have hlow : (ofRat binary32 (-16)).1 = some (-16) := by decide +kernel
  have hrange : (ofRat binary32 16 - ofRat binary32 (-16) + .ofRat _ (1 / 10 ^ 6)).1 =
      some (-2 * -16) := by decide +kernel
  intro i (hi : i < 7)
  have hall (x : Single) : stretched (List.replicate 7 x) i = x := by
    rw [stretched, List.length_replicate, if_neg (by decide), List.getD_eq_getElem?_getD,
      List.getElem?_replicate_of_lt hi, Option.getD_some]
  exact ⟨-16, (congrArg Subtype.val (hall _)).trans hlow, by
    rw [← hrange]
    congr 3 <;> exact hall _⟩

/-- Percentiles 0 and 1 make a half of each zero. -/
theorem infer_not_zero :
    infer (some (.quantile (List.replicate 7 0) (List.replicate 7 (.ofRat _ 1)))) failingPipeline
      blankObservation = some [List.replicate 7 (.ofRat _ (1000001 / 2000000))] := by
  decide +kernel

end Failure

end ActQuant.Pi05
