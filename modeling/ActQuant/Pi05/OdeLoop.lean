import ActQuant.Lib.FloatFormat
import ActQuant.Lib.Run
import Mathlib.Algebra.Order.Archimedean.Basic
import Mathlib.Data.Fin.VecNotation
import Mathlib.Tactic.FieldSimp
import Mathlib.Tactic.Positivity

namespace ActQuant.Pi05.OdeLoop
open StateTransition

variable {n : Nat} {T C : Type}

section Samplers

/-- What the loop of a sampler changes; it is left when an evaluation has failed. -/
structure OdeState (n : Nat) where
  actionsOut : Fin n → ℚ
  t : ℚ
  failed : Bool

/-- What a sampler returns, and the actions it leaves. -/
def OdeState.result (s : OdeState n) : Bool × (Fin n → ℚ) := (!s.failed, s.actionsOut)

/-- `-1.0f / num_steps`, which is minus infinity for no steps. -/
def stepSize (fl : ℚ → ℚ) (numSteps : Int) : Option ℚ :=
  if numSteps = 0 then none else some (fl (-1 / fl numSteps))

/-- A turn of the loop `while (t >= -dt / 2)`, by the network's velocity; no time is as late as
plus infinity. What the arithmetic computes is rounded. -/
def odeStep (fl : ℚ → ℚ) (velocity : (Fin n → ℚ) → T → Option (Fin n → ℚ)) (embedding : ℚ → T)
    (numSteps : Int) (s : OdeState n) : Option (OdeState n) :=
  match stepSize fl numSteps with
  | none => none
  | some dt =>
    if s.failed ∨ s.t < fl (-dt / 2) then none
    else
      match velocity s.actionsOut (embedding s.t) with
      | none => some { s with failed := true }
      | some v => some ⟨fun i => fl (s.actionsOut i + fl (dt * v i)), fl (s.t + dt), false⟩

/-- `sample_actions`, from the seeded noise on. -/
def sampleActions (fl : ℚ → ℚ) (run : (Fin n → ℚ) → T → Option (Fin n → ℚ)) (embedding : ℚ → T)
    (noise : Fin n → ℚ) (numSteps : Int) : Part (Bool × (Fin n → ℚ)) :=
  (eval (odeStep fl run embedding numSteps) ⟨noise, 1, false⟩).map OdeState.result

structure OdeStepRecord where
  step : Nat
  t : ℚ
  velNorm : ℚ
  velL1 : ℚ
  inputL1 : ℚ
  diffErr : ℚ
  taylorErr : ℚ
  perElemChange : List ℚ

/-- The loop of the cached sampler keeps statistics, and what they need of the last two steps. -/
structure CachedOdeState (n : Nat) where
  ode : OdeState n
  odeSteps : Nat
  records : List OdeStepRecord
  prevX : Fin n → ℚ
  prevV : Fin n → ℚ
  prevDiff : Fin n → ℚ
  prevPrevV : Fin n → ℚ
  step : Nat

def meanAbs (fl : ℚ → ℚ) (f : Fin n → ℚ) : ℚ :=
  fl (((List.finRange n).foldl (fun sum i => fl (sum + |f i|)) 0) / fl n)

/-- The record of a step; what has no step before it is -1. -/
def CachedOdeState.record (fl : ℚ → ℚ) (s : CachedOdeState n) (v : Fin n → ℚ) : OdeStepRecord :=
  let x := s.ode.actionsOut
  let mean := meanAbs fl
  let velNorm := mean v
  let relative (err : ℚ) := if fl (1 / 10 ^ 8) < velNorm then fl (err / velNorm) else -1
  { step := s.step
    t := s.ode.t
    velNorm := velNorm
    velL1 := if 0 < s.step then mean fun i => fl (v i - s.prevV i) else -1
    inputL1 := if 0 < s.step then mean fun i => fl (x i - s.prevX i) else -1
    diffErr :=
      if 0 < s.step then relative (mean fun i => fl (v i - fl (x i + s.prevDiff i))) else -1
    taylorErr :=
      if 1 < s.step then
        relative (mean fun i => fl (v i - fl (fl (2 * s.prevV i) - s.prevPrevV i)))
      else -1
    perElemChange :=
      if 0 < s.step then (List.finRange n).map fun i => |fl (x i - s.prevX i)| else [] }

/-- A turn of the loop of the cached sampler. -/
def cachedOdeStep (fl : ℚ → ℚ) (velocity : (Fin n → ℚ) → T → Option (Fin n → ℚ))
    (embedding : ℚ → T) (numSteps : Int) (s : CachedOdeState n) : Option (CachedOdeState n) :=
  match stepSize fl numSteps with
  | none => none
  | some dt =>
    if s.ode.failed ∨ s.ode.t < fl (-dt / 2) then none
    else
      let x := s.ode.actionsOut
      match velocity x (embedding s.ode.t) with
      | none => some { s with ode := { s.ode with failed := true } }
      | some v => some
        { ode := ⟨fun i => fl (x i + fl (dt * v i)), fl (s.ode.t + dt), false⟩
          odeSteps := s.odeSteps + 1
          records := s.records ++ [s.record fl v]
          prevX := x
          prevV := v
          prevDiff := fun i => fl (v i - x i)
          prevPrevV := s.prevV
          step := s.step + 1 }

/-- The state before the first step, where the vectors of the last steps are empty. -/
def CachedOdeState.init (noise : Fin n → ℚ) : CachedOdeState n :=
  ⟨⟨noise, 1, false⟩, 0, [], 0, 0, 0, 0, 0⟩

/-- `sample_actions_with_cache`, by the K/V cache; it returns early when there is none. -/
def sampleActionsWithCache (fl : ℚ → ℚ) (computeKvCache : Option C)
    (runWithCache : C → (Fin n → ℚ) → T → Option (Fin n → ℚ)) (embedding : ℚ → T)
    (noise : Fin n → ℚ) (numSteps : Int) : Part (Option (CachedOdeState n)) :=
  match computeKvCache with
  | none => Part.some none
  | some cache =>
    (eval (cachedOdeStep fl (runWithCache cache) embedding numSteps) (.init noise)).map some

end Samplers

section Euler
variable (fl : ℚ → ℚ) (velocity : (Fin n → ℚ) → T → Option (Fin n → ℚ)) (embedding : ℚ → T)
  (dt : ℚ)

/-- An Euler update `x := x + dt * v`, after which an evaluation may have failed. -/
def eulerUpdate (r : Bool × (Fin n → ℚ)) (t : ℚ) : Bool × (Fin n → ℚ) :=
  match r with
  | (false, x) => (false, x)
  | (true, x) =>
    match velocity x (embedding t) with
    | none => (false, x)
    | some v => (true, fun i => fl (x i + fl (dt * v i)))

/-- The Euler updates at the given times. -/
def euler (noise : Fin n → ℚ) (times : List ℚ) : Bool × (Fin n → ℚ) :=
  times.foldl (eulerUpdate fl velocity embedding dt) (true, noise)

/-- The first times of an integration by `1 / num_steps`: 1, 1 - 1 / N and so on. -/
def times (numSteps : Int) (k : Nat) : List ℚ :=
  (List.range k).map fun (j : Nat) => 1 - (j : ℚ) / numSteps

/-- The time after a number of steps. -/
def timeAt : Nat → ℚ
  | 0 => 1
  | k + 1 => fl (timeAt k + dt)

/-- Some evaluation of the network fails, should the updates go on for ever. -/
def EvaluationFails (noise : Fin n → ℚ) : Prop :=
  ∃ k, (euler fl velocity embedding dt noise ((List.range k).map (timeAt fl dt))).1 = false

/-- The loop is entered at the time of the step. -/
def Entered (j : Nat) : Prop := ¬ timeAt fl dt j < fl (-dt / 2)

/-- The state after a number of updates. -/
structure AfterUpdates (noise : Fin n → ℚ) (k : Nat) (s : OdeState n) : Prop where
  result : s.result =
    euler fl velocity embedding dt noise ((List.range k).map (timeAt fl dt))
  time : s.failed = false → s.t = timeAt fl dt k

end Euler

section Loop
variable {fl : ℚ → ℚ} {velocity : (Fin n → ℚ) → T → Option (Fin n → ℚ)} {embedding : ℚ → T}
  {noise : Fin n → ℚ} {numSteps : Int} {dt : ℚ}

theorem euler_range_succ (k : Nat) :
    euler fl velocity embedding dt noise ((List.range (k + 1)).map (timeAt fl dt)) =
      eulerUpdate fl velocity embedding dt
        (euler fl velocity embedding dt noise ((List.range k).map (timeAt fl dt)))
        (timeAt fl dt k) := by
  rw [euler, List.range_succ, List.map_append, List.foldl_append]
  rfl

theorem euler_ok (h : ∀ x e, ∃ v, velocity x e = some v) (times : List ℚ) :
    (euler fl velocity embedding dt noise times).1 = true := by
  induction times generalizing noise with
  | nil => rfl
  | cons t times ih =>
    obtain ⟨v, hv⟩ := h noise (embedding t)
    rw [euler, List.foldl_cons, eulerUpdate, hv]
    exact ih

theorem odeStep_of_failed (h : s.failed = true) :
    odeStep fl velocity embedding numSteps s = none := by
  rw [odeStep]
  cases stepSize fl numSteps with
  | none => rfl
  | some dt => exact if_pos (.inl h)

theorem odeStep_of_left {j : Nat} (hdt : stepSize fl numSteps = some dt)
    (ht : s.t = timeAt fl dt j) (h : ¬ Entered fl dt j) :
    odeStep fl velocity embedding numSteps s = none := by
  rw [odeStep, hdt]
  refine if_pos (.inr ?_)
  rw [ht]
  exact not_not.1 h

/-- An entered turn of the loop is an Euler update. -/
theorem odeStep_of_entered (hdt : stepSize fl numSteps = some dt)
    (h : AfterUpdates fl velocity embedding dt noise k s) (hok : s.failed = false)
    (hin : Entered fl dt k) : ∃ s', odeStep fl velocity embedding numSteps s = some s' ∧
      AfterUpdates fl velocity embedding dt noise (k + 1) s' := by
  obtain ⟨x, t, failed⟩ := s
  cases hok
  obtain ⟨hresult, htime⟩ := h
  replace htime : t = timeAt fl dt k := htime rfl
  subst htime
  replace hresult : (true, x) = euler fl velocity embedding dt noise _ := hresult
  have hguard : ¬ ((false = true) ∨ timeAt fl dt k < fl (-dt / 2)) :=
    not_or.2 ⟨Bool.false_ne_true, hin⟩
  simp only [odeStep, hdt, if_neg hguard]
  cases hv : velocity x (embedding (timeAt fl dt k)) with
  | none =>
    refine ⟨_, rfl, ⟨?_, fun h => by cases h⟩⟩
    rw [euler_range_succ, ← hresult, eulerUpdate, hv]
    rfl
  | some v =>
    refine ⟨_, rfl, ⟨?_, fun _ => rfl⟩⟩
    rw [euler_range_succ, ← hresult, eulerUpdate, hv]
    rfl

theorem afterUpdates_init :
    AfterUpdates fl velocity embedding dt noise 0 ⟨noise, 1, false⟩ :=
  ⟨rfl, fun _ => rfl⟩

theorem AfterUpdates.failed_succ (h : AfterUpdates fl velocity embedding dt noise k s)
    (hfailed : s.failed = true) : AfterUpdates fl velocity embedding dt noise (k + 1) s := by
  refine ⟨?_, fun hok => ?_⟩
  · rw [euler_range_succ, ← h.result, OdeState.result, hfailed]
    rfl
  · rw [hfailed] at hok
    cases hok

/-- While the loop is entered, it gets to the state after so many updates. -/
theorem reaches_afterUpdates (hdt : stepSize fl numSteps = some dt)
    (hin : ∀ j < k, Entered fl dt j) :
    ∃ s, Reaches (odeStep fl velocity embedding numSteps) ⟨noise, 1, false⟩ s ∧
      AfterUpdates fl velocity embedding dt noise k s := by
  induction k with
  | zero => exact ⟨_, .refl, afterUpdates_init⟩
  | succ k ih =>
    obtain ⟨s, hreach, hs⟩ := ih fun j hj => hin j (by omega)
    cases hfailed : s.failed with
    | true => exact ⟨s, hreach, hs.failed_succ hfailed⟩
    | false =>
      obtain ⟨s', hstep, hs'⟩ := odeStep_of_entered hdt hs hfailed (hin k (by omega))
      exact ⟨s', hreach.tail hstep, hs'⟩

/-- The loop is in no other states. -/
theorem afterUpdates_of_reaches (hdt : stepSize fl numSteps = some dt)
    (h : Reaches (odeStep fl velocity embedding numSteps) ⟨noise, 1, false⟩ s) :
    ∃ k, AfterUpdates fl velocity embedding dt noise k s := by
  refine ActQuant.Lib.invariant_reaches
    (I := fun s => ∃ k, AfterUpdates fl velocity embedding dt noise k s)
    ⟨0, afterUpdates_init⟩ ?_ h
  intro s s' hs hstep
  obtain ⟨k, hs⟩ := hs
  have hok : s.failed = false := by
    by_contra hfailed
    rw [odeStep_of_failed (Bool.eq_true_of_not_eq_false hfailed)] at hstep
    cases hstep
  have hin : Entered fl dt k := by
    by_contra hout
    rw [odeStep_of_left hdt (hs.time hok) hout] at hstep
    cases hstep
  obtain ⟨s'', hstep', hs'⟩ := odeStep_of_entered hdt hs hok hin
  rw [hstep'] at hstep
  cases hstep
  exact ⟨k + 1, hs'⟩

/-- The loop ends in a state `s`. -/
theorem eval_of_reaches (hreach : Reaches step s₀ s) (hstop : step s = none) :
    eval step s₀ = Part.some s :=
  Part.eq_some_iff.2 (mem_eval.2 ⟨hreach, hstop⟩)

/-- The loop ends after the steps that are entered, or earlier by a failure. -/
theorem eval_of_left (hdt : stepSize fl numSteps = some dt) (hin : ∀ j < k, Entered fl dt j)
    (hout : ¬ Entered fl dt k) :
    ∃ s, eval (odeStep fl velocity embedding numSteps) ⟨noise, 1, false⟩ = Part.some s ∧
      AfterUpdates fl velocity embedding dt noise k s := by
  obtain ⟨s, hreach, hs⟩ := reaches_afterUpdates hdt hin
  refine ⟨s, eval_of_reaches hreach ?_, hs⟩
  cases hfailed : s.failed with
  | true => exact odeStep_of_failed hfailed
  | false => exact odeStep_of_left hdt (hs.time hfailed) hout

/-- The loop ends just where the time gets below the half step or an evaluation fails. -/
theorem eval_odeStep_dom_iff (hdt : stepSize fl numSteps = some dt) :
    (eval (odeStep fl velocity embedding numSteps) ⟨noise, 1, false⟩).Dom ↔
      (∃ k, ¬ Entered fl dt k) ∨ EvaluationFails fl velocity embedding dt noise := by
  have hends (hleft : ∃ k, ¬ Entered fl dt k) :
      (eval (odeStep fl velocity embedding numSteps) ⟨noise, 1, false⟩).Dom := by
    classical
    have hfirst (j : Nat) (hj : j < Nat.find hleft) : Entered fl dt j :=
      not_not.1 (Nat.find_min hleft hj)
    obtain ⟨s, heval, -⟩ : ∃ s, eval (odeStep fl velocity embedding numSteps) ⟨noise, 1, false⟩ =
        Part.some s ∧ AfterUpdates fl velocity embedding dt noise _ s :=
      eval_of_left hdt hfirst (Nat.find_spec hleft)
    rw [heval]
    trivial
  constructor
  · intro h
    obtain ⟨hreach, hstop⟩ := mem_eval.1 (Part.get_mem h)
    obtain ⟨k, hs⟩ := afterUpdates_of_reaches hdt hreach
    by_cases hin : Entered fl dt k
    · refine .inr ⟨k, ?_⟩
      by_contra hok
      rw [← hs.result, OdeState.result, Bool.not_eq_false, Bool.not_eq_true'] at hok
      obtain ⟨s', hstep, -⟩ := odeStep_of_entered hdt hs hok hin
      rw [hstop] at hstep
      cases hstep
    · exact .inl ⟨k, hin⟩
  · rintro (hleft | ⟨k, hfails⟩)
    · exact hends hleft
    · by_cases hleft : ∃ k, ¬ Entered fl dt k
      · exact hends hleft
      · rw [not_exists] at hleft
        obtain ⟨s, hreach, hs⟩ := reaches_afterUpdates hdt fun j (_ : j < k) => not_not.1 (hleft j)
        rw [← hs.result, OdeState.result, Bool.not_eq_false'] at hfails
        rw [eval_of_reaches hreach (odeStep_of_failed hfails)]
        trivial

end Loop

section Exact
variable {velocity : (Fin n → ℚ) → T → Option (Fin n → ℚ)} {embedding : ℚ → T}
  {noise : Fin n → ℚ}

theorem timeAt_id (dt : ℚ) (k : Nat) : timeAt id dt k = 1 + k * dt := by
  induction k with
  | zero => rw [timeAt, Nat.cast_zero, zero_mul, add_zero]
  | succ k ih =>
    rw [timeAt, id_eq, ih, Nat.cast_succ]
    ring

theorem times_eq (N k : Nat) : (List.range k).map (timeAt id (-1 / (N : ℚ))) = times N k := by
  refine List.map_congr_left fun j _ => ?_
  rw [timeAt_id, Int.cast_natCast]
  ring

theorem entered_of_pos {N : Nat} (hN : 1 ≤ N) : Entered id (-1 / (N : ℚ)) k ↔ k < N := by
  have hpos : (0 : ℚ) < N := Nat.cast_pos.2 hN
  rw [Entered, timeAt_id, not_lt, id_eq, ← sub_nonneg]
  have hdiff : 1 + (k : ℚ) * (-1 / N) - -(-1 / N) / 2 =
      ((2 * N : ℚ) - (2 * k + 1)) / (2 * N) := by
    field_simp
    ring
  rw [hdiff, le_div_iff₀ (by positivity), zero_mul, sub_nonneg]
  have hcast : (2 * k + 1 : ℚ) ≤ 2 * N ↔ 2 * k + 1 ≤ 2 * N := by exact_mod_cast Iff.rfl
  rw [hcast]
  omega

theorem stepSize_exact {N : Nat} (hN : 1 ≤ N) : stepSize id N = some (-1 / (N : ℚ)) := by
  rw [stepSize, if_neg (by omega), id_eq, id_eq, Int.cast_natCast]

variable (velocity embedding noise) in
/-- The loop for `N ≥ 1` steps ends after the updates at 1, 1 - 1 / N, …, 1 / N. -/
theorem eval_odeStep_of_pos {N : Nat} (hN : 1 ≤ N) :
    ∃ s, eval (odeStep id velocity embedding N) ⟨noise, 1, false⟩ = Part.some s ∧
      AfterUpdates id velocity embedding (-1 / N) noise N s :=
  eval_of_left (stepSize_exact hN) (fun _ => (entered_of_pos hN).2)
    fun h => lt_irrefl N ((entered_of_pos hN).1 h)

end Exact

section Machine
open ActQuant.Lib FloatFormat
variable {numSteps : Int}

/-- The step of the machine. -/
def machineStep (numSteps : Int) : ℚ := binary32.round (-1 / binary32.round numSteps)

theorem stepSize_machine (hsteps : numSteps ≠ 0) :
    stepSize binary32.round numSteps = some (machineStep numSteps) := if_neg hsteps

theorem machineStep_of_neg (h : numSteps < 0) : 0 ≤ machineStep numSteps := by
  have hle : binary32.round numSteps ≤ 0 := by
    rw [← round_zero (F := binary32)]
    exact round_mono (by exact_mod_cast h.le)
  exact round_nonneg (div_nonneg_of_nonpos (by norm_num) hle)

/-- A step that is smaller than half of the last place below 1 does not change the time. -/
theorem timeAt_of_small {dt : ℚ} (hle : dt ≤ 0) (hge : -1 / 2 ^ 25 ≤ dt) (k : Nat) :
    timeAt binary32.round dt k = 1 := by
  have hone : binary32.round 1 = 1 := by decide +kernel
  have hbelow : binary32.round (1 + -1 / 2 ^ 25) = 1 := by decide +kernel
  induction k with
  | zero => rfl
  | succ k ih =>
    rw [timeAt, ih]
    apply le_antisymm
    · rw [← hone]
      exact round_mono (by linarith)
    · rw [← hbelow]
      exact round_mono (by linarith)

theorem machineStep_of_large (h : 33554431 ≤ numSteps) :
    machineStep numSteps ≤ 0 ∧ -1 / 2 ^ 25 ≤ machineStep numSteps := by
  have hsteps : (2 : ℚ) ^ 25 ≤ binary32.round numSteps := by
    have hfirst : binary32.round 33554431 = 2 ^ 25 := by decide +kernel
    rw [← hfirst]
    exact round_mono (by exact_mod_cast h)
  have hpow : (0 : ℚ) < 2 ^ 25 := by positivity
  constructor
  · rw [← round_zero (F := binary32)]
    exact round_mono (div_nonpos_of_nonpos_of_nonneg (by norm_num) (hpow.le.trans hsteps))
  · have hround : binary32.round (-1 / 2 ^ 25) = -1 / 2 ^ 25 := by decide +kernel
    rw [← hround]
    apply round_mono
    rw [neg_div, neg_div, neg_le_neg_iff]
    exact one_div_le_one_div_of_le hpow hsteps

/-- Up to a number of steps, the step is larger than half of the last place below 1. -/
theorem machineStep_of_pos (hpos : 0 < numSteps) (h : numSteps ≤ 33554430) :
    machineStep numSteps < -1 / 2 ^ 25 ∧ -1 ≤ machineStep numSteps := by
  have hone : binary32.round 1 = 1 := by decide +kernel
  have hone' : binary32.round (-1) = -1 := by decide +kernel
  have hlast : binary32.round 33554430 = 33554430 := by decide +kernel
  have hge : 1 ≤ binary32.round numSteps := by
    rw [← hone]
    exact round_mono (by exact_mod_cast hpos)
  have hle : binary32.round numSteps ≤ 33554430 := by
    rw [← hlast]
    exact round_mono (by exact_mod_cast h)
  constructor
  · have hlt : binary32.round (-1 / 33554430) < -1 / 2 ^ 25 := by decide +kernel
    refine lt_of_le_of_lt (round_mono ?_) hlt
    rw [neg_div, neg_div, neg_le_neg_iff]
    exact one_div_le_one_div_of_le (by linarith) hle
  · rw [← hone']
    apply round_mono
    rw [neg_div, neg_le_neg_iff, div_le_one (by linarith)]
    exact hge

/-- Each step takes the time down by more than a fixed amount. -/
theorem timeAt_le {dt : ℚ} (hlt : dt < -1 / 2 ^ 25) (hge : -1 ≤ dt)
    (hin : ∀ k, 0 < timeAt binary32.round dt k) (k : Nat) :
    timeAt binary32.round dt k ≤ 1 + k * (dt + 1 / 2 ^ 25) := by
  induction k with
  | zero => rw [timeAt, Nat.cast_zero, zero_mul, add_zero]
  | succ k ih =>
    have hpos := hin k
    have hle : timeAt binary32.round dt k ≤ 1 := by
      refine ih.trans ?_
      have : (k : ℚ) * (dt + 1 / 2 ^ 25) ≤ 0 :=
        mul_nonpos_of_nonneg_of_nonpos (Nat.cast_nonneg k) (by linarith)
      linarith
    rw [timeAt, Nat.cast_succ]
    generalize timeAt binary32.round dt k = t at *
    have hlast : binary32.lastPlace (t + dt) ≤ -24 := by
      apply lastPlace_le (by decide)
      have hone : (2 : ℚ) ^ ((-24 : ℤ) + (binary32.prec : ℤ)) = 1 := by decide +kernel
      rw [hone, abs_lt]
      constructor <;> linarith
    have hplace : (2 : ℚ) ^ binary32.lastPlace (t + dt) ≤ 1 / 2 ^ 24 := by
      have hexp : (2 : ℚ) ^ (-24 : ℤ) = 1 / 2 ^ 24 := by norm_num
      rw [← hexp]
      exact zpow_le_zpow_right₀ one_le_two hlast
    have hround := (abs_le.1 (abs_round_sub_le (F := binary32) (t + dt))).2
    linarith

theorem one_le_timeAt {dt : ℚ} (hdt : 0 ≤ dt) (k : Nat) : 1 ≤ timeAt binary32.round dt k := by
  have hone : binary32.round 1 = 1 := by decide +kernel
  induction k with
  | zero => exact le_rfl
  | succ k ih =>
    rw [timeAt, ← hone]
    exact round_mono (by linarith)

/-- The time gets below the half step just for the numbers of steps whose step changes it. -/
theorem leaves_iff (hsteps : numSteps ≠ 0) :
    (∃ k, ¬ Entered binary32.round (machineStep numSteps) k) ↔
      0 ≤ numSteps ∧ numSteps ≤ 33554430 := by
  simp only [Entered, not_not]
  have hone : binary32.round 1 = 1 := by decide +kernel
  rcases lt_or_ge numSteps 0 with hneg | hnonneg
  · refine iff_of_false ?_ fun h => absurd h.1 (not_le.2 hneg)
    rintro ⟨k, hlt⟩
    have hdt := machineStep_of_neg hneg
    have hhalf : binary32.round (-machineStep numSteps / 2) ≤ binary32.round 0 :=
      round_mono (by linarith)
    rw [round_zero] at hhalf
    linarith [one_le_timeAt hdt k]
  · rcases le_or_gt numSteps 33554430 with hle | hgt
    · refine iff_of_true ?_ ⟨hnonneg, hle⟩
      obtain ⟨hlt, hge⟩ := machineStep_of_pos (by omega) hle
      by_contra hin
      rw [not_exists] at hin
      have hhalf : binary32.round (1 / 2 ^ 26) ≤ binary32.round (-machineStep numSteps / 2) :=
        round_mono (by linarith)
      have hleast : (0 : ℚ) < binary32.round (1 / 2 ^ 26) := by decide +kernel
      have hpos (k : Nat) : 0 < timeAt binary32.round (machineStep numSteps) k :=
        hleast.trans_le (hhalf.trans (not_lt.1 (hin k)))
      obtain ⟨k, hk⟩ := exists_nat_gt (1 / -(machineStep numSteps + 1 / 2 ^ 25))
      rw [div_lt_iff₀ (by linarith)] at hk
      linarith [timeAt_le hlt hge hpos k, hpos k]
    · refine iff_of_false ?_ fun h => absurd h.2 (not_le.2 hgt)
      rintro ⟨k, hlt⟩
      obtain ⟨hle, hge⟩ := machineStep_of_large (show 33554431 ≤ numSteps by omega)
      rw [timeAt_of_small hle hge, ← hone] at hlt
      exact absurd (round_mono (by linarith)) (not_le.2 hlt)

end Machine

section Cached
variable {fl : ℚ → ℚ} {velocity : (Fin n → ℚ) → T → Option (Fin n → ℚ)} {embedding : ℚ → T}
  {noise : Fin n → ℚ} {numSteps : Int} {dt : ℚ}

/-- The statistics are about the updates made. -/
structure CachedOdeState.Recorded (fl : ℚ → ℚ) (dt : ℚ) (s : CachedOdeState n) : Prop where
  steps : s.step = s.odeSteps
  records : s.records.map (fun r => (r.step, r.t)) =
    (List.range s.step).map fun j => (j, timeAt fl dt j)
  time : s.ode.failed = false → s.ode.t = timeAt fl dt s.step

variable (fl velocity embedding numSteps) in
/-- The cached sampler's loop is the other one, with statistics. -/
theorem cachedOdeStep_map (s : CachedOdeState n) :
    (cachedOdeStep fl velocity embedding numSteps s).map (·.ode) =
      odeStep fl velocity embedding numSteps s.ode := by
  rw [cachedOdeStep, odeStep]
  cases stepSize fl numSteps with
  | none => rfl
  | some dt =>
    dsimp only
    split
    · rfl
    · cases velocity s.ode.actionsOut (embedding s.ode.t) <;> rfl

theorem eval_cachedOdeStep (s : CachedOdeState n) :
    eval (odeStep fl velocity embedding numSteps) s.ode =
      (eval (cachedOdeStep fl velocity embedding numSteps) s).map (·.ode) := by
  have hrespects ⦃t : CachedOdeState n⦄ : FRespects (odeStep fl velocity embedding numSteps)
      CachedOdeState.ode t.ode (cachedOdeStep fl velocity embedding numSteps t) := by
    have hmap := cachedOdeStep_map fl velocity embedding numSteps t
    cases hstep : cachedOdeStep fl velocity embedding numSteps t with
    | none =>
      rw [hstep] at hmap
      exact hmap.symm
    | some t' =>
      rw [hstep] at hmap
      exact .single hmap.symm
  exact tr_eval' _ _ CachedOdeState.ode ((@fun_respects _ _ _ _ CachedOdeState.ode).2 hrespects) s

theorem recorded_init (noise : Fin n → ℚ) : (CachedOdeState.init noise).Recorded fl dt where
  steps := rfl
  records := rfl
  time := fun _ => rfl

theorem recorded_step (hdt : stepSize fl numSteps = some dt) (hs : s.Recorded fl dt)
    (h : cachedOdeStep fl velocity embedding numSteps s = some s') : s'.Recorded fl dt := by
  obtain ⟨hsteps, hrecords, htime⟩ := hs
  simp only [cachedOdeStep, hdt] at h
  split at h
  · cases h
  · rename_i hguard
    rw [not_or, Bool.not_eq_true] at hguard
    have ht := htime hguard.1
    cases hv : velocity s.ode.actionsOut (embedding s.ode.t) with
    | none =>
      simp only [hv, Option.some.injEq] at h
      subst h
      exact ⟨hsteps, hrecords, fun h => by cases h⟩
    | some v =>
      simp only [hv, Option.some.injEq] at h
      subst h
      refine ⟨congrArg (· + 1) hsteps, ?_, fun _ => congrArg (fun t => fl (t + dt)) ht⟩
      rw [List.map_append, hrecords, List.range_succ, List.map_append]
      simp only [List.map_cons, List.map_nil, CachedOdeState.record, ht]

variable (velocity embedding noise) in
/-- The cached sampler's loop for `N ≥ 1` steps makes the same updates, and counts them. -/
theorem eval_cachedOdeStep_of_pos {N : Nat} (hN : 1 ≤ N) :
    ∃ s, eval (cachedOdeStep id velocity embedding N) (.init noise) = Part.some s ∧
      s.ode.result = euler id velocity embedding (-1 / N) noise (times N N) ∧
      (s.ode.failed = false → s.odeSteps = N ∧
        s.records.map (fun r => (r.step, r.t)) =
          (List.range N).map fun (j : Nat) => (j, 1 - (j : ℚ) / N)) := by
  obtain ⟨s, heval, hs⟩ := eval_odeStep_of_pos velocity embedding noise hN
  have hmem : s ∈ (eval (cachedOdeStep id velocity embedding N) (.init noise)).map (·.ode) := by
    rw [← eval_cachedOdeStep]
    exact Part.eq_some_iff.1 heval
  obtain ⟨c, hc, rfl⟩ := (Part.mem_map_iff _).1 hmem
  refine ⟨c, Part.eq_some_iff.2 hc, by rw [hs.result, times_eq], fun hok => ?_⟩
  obtain ⟨hsteps, hrecords, htime⟩ : c.Recorded id (-1 / N) :=
    ActQuant.Lib.invariant_reaches (recorded_init noise) (recorded_step (stepSize_exact hN))
      (mem_eval.1 hc).1
  -- The time it ends at tells the number of updates.
  have hpos : (N : ℚ) ≠ 0 := Nat.cast_ne_zero.2 (by omega)
  have hstep : c.step = N := by
    have ht := (htime hok).symm.trans (hs.time hok)
    rw [timeAt_id, timeAt_id, add_right_inj] at ht
    exact Nat.cast_injective (mul_right_cancel₀ (div_ne_zero (by norm_num) hpos) ht)
  rw [hstep] at hsteps hrecords
  refine ⟨hsteps.symm, hrecords.trans (List.map_congr_left fun j _ => ?_)⟩
  rw [timeAt_id]
  ring_nf

theorem eval_cachedOdeStep_dom :
    (eval (cachedOdeStep fl velocity embedding numSteps) (.init noise)).Dom ↔
      (eval (odeStep fl velocity embedding numSteps) ⟨noise, 1, false⟩).Dom :=
  (congrArg Part.Dom (eval_cachedOdeStep (.init noise))).symm.to_iff

end Cached

section Main
open ActQuant.Lib
variable (run : (Fin n → ℚ) → T → Option (Fin n → ℚ)) (computeKvCache : Option C)
  (runWithCache : C → (Fin n → ℚ) → T → Option (Fin n → ℚ)) (embedding : ℚ → T)
  (noise : Fin n → ℚ)

/-- In exact arithmetic the samplers take just the `N` steps of the integration, at 1, 1 - 1 / N,
…, 1 / N, and in that of the machine both come to an end. -/
structure IntegratesRight (numSteps : Int) : Prop where
  uncached : ∀ N : Nat, 1 ≤ N → numSteps = N →
    sampleActions id run embedding noise numSteps =
      Part.some (euler id run embedding (-1 / N) noise (times N N))
  cached : ∀ N : Nat, 1 ≤ N → numSteps = N → ∀ cache, computeKvCache = some cache →
    ∃ s, sampleActionsWithCache id computeKvCache runWithCache embedding noise numSteps =
        Part.some (some s) ∧
      s.ode.result = euler id (runWithCache cache) embedding (-1 / N) noise (times N N) ∧
      (s.ode.failed = false → s.odeSteps = N ∧
        s.records.map (fun r => (r.step, r.t)) =
          (List.range N).map fun (j : Nat) => (j, 1 - (j : ℚ) / N))
  uncached_ends : (sampleActions binary32.round run embedding noise numSteps).Dom
  cached_ends :
    (sampleActionsWithCache binary32.round computeKvCache runWithCache embedding noise numSteps).Dom

variable {run computeKvCache runWithCache embedding noise}

theorem sampleActions_dom {numSteps : Int} :
    (sampleActions binary32.round run embedding noise numSteps).Dom ↔
      0 ≤ numSteps ∧ numSteps ≤ 33554430 ∨
        EvaluationFails binary32.round run embedding (machineStep numSteps) noise := by
  change (eval (odeStep binary32.round run embedding numSteps) ⟨noise, 1, false⟩).Dom ↔ _
  by_cases hzero : numSteps = 0
  · subst hzero
    rw [eval_of_reaches .refl (show odeStep binary32.round run embedding 0 _ = none from rfl)]
    exact iff_of_true trivial (.inl (by decide))
  · rw [eval_odeStep_dom_iff (stepSize_machine hzero), leaves_iff hzero]

theorem sampleActionsWithCache_dom {numSteps : Int} :
    (sampleActionsWithCache binary32.round computeKvCache runWithCache embedding noise
        numSteps).Dom ↔
      0 ≤ numSteps ∧ numSteps ≤ 33554430 ∨ ∀ cache, computeKvCache = some cache →
        EvaluationFails binary32.round (runWithCache cache) embedding (machineStep numSteps)
          noise := by
  cases computeKvCache with
  | none => exact iff_of_true trivial (.inr fun cache h => by cases h)
  | some cache =>
    change (eval (cachedOdeStep binary32.round (runWithCache cache) embedding numSteps)
      (.init noise)).Dom ↔ _
    simp only [Option.some.injEq, forall_eq']
    exact eval_cachedOdeStep_dom.trans sampleActions_dom

/-- The samplers integrate right just where the number of steps is not negative and its step still
changes the time, or where each loop gets out by a failed evaluation. -/
theorem integratesRight_iff (numSteps : Int) :
    IntegratesRight run computeKvCache runWithCache embedding noise numSteps ↔
      0 ≤ numSteps ∧ numSteps ≤ 33554430 ∨
        EvaluationFails binary32.round run embedding (machineStep numSteps) noise ∧
          ∀ cache, computeKvCache = some cache →
            EvaluationFails binary32.round (runWithCache cache) embedding (machineStep numSteps)
              noise := by
  constructor
  · intro h
    have huncached := sampleActions_dom.1 h.uncached_ends
    have hcached := sampleActionsWithCache_dom.1 h.cached_ends
    exact or_and_left.2 ⟨huncached, hcached⟩
  · intro h
    obtain ⟨huncached, hcached⟩ := or_and_left.1 h
    refine ⟨?_, ?_, sampleActions_dom.2 huncached, sampleActionsWithCache_dom.2 hcached⟩
    · rintro N hN rfl
      obtain ⟨s, heval, hs⟩ := eval_odeStep_of_pos run embedding noise hN
      rw [sampleActions, heval, Part.map_some, hs.result, times_eq]
    · rintro N hN rfl cache rfl
      obtain ⟨s, heval, hs⟩ := eval_cachedOdeStep_of_pos (runWithCache cache) embedding noise hN
      refine ⟨s, ?_, hs⟩
      rw [sampleActionsWithCache, heval, Part.map_some]

/-- A network of the velocity zero, asked for -1 steps. -/
theorem never_ends_of_minusOne :
    ¬ (sampleActions binary32.round (fun _ (_ : ℚ) => some ![0]) id ![(1 : ℚ)] (-1)).Dom := by
  intro h
  rcases sampleActions_dom.1 h with hsteps | ⟨k, hk⟩
  · exact absurd hsteps (by decide)
  · rw [euler_ok fun _ _ => ⟨_, rfl⟩] at hk
    cases hk

end Main

end ActQuant.Pi05.OdeLoop
