import ActQuant.Sampling.Sampler

namespace ActQuant.Sampling
open ActQuant.Lib Floats Sorters

/-! What can be seen of a sampler through the calls on it. -/

/-- The part of the state that calls depend on: counts only where tokens are penalized. -/
def Penalties.view [Floats F] (ctx : Penalties F) : Penalties F :=
  if ctx.Active then ctx else { ctx with tokenCount := [] }

def GrammarSampler.view (ctx : GrammarSampler) : GrammarSampler :=
  match ctx.grammar with
  | none => { ctx with grammarStr := [], grammarRoot := [] }
  | some _ => ctx

namespace Sampler

mutual
/-- A sampler without what no call depends on: the seed drawn last, counts that nothing is
penalized by and the text of a grammar that is not there. -/
def view [Floats F] : Sampler F R → Sampler F R
  | dist ctx => dist { ctx with seedCur := 0 }
  | xtc ctx => xtc { ctx with seedCur := 0 }
  | mirostat ctx => mirostat { ctx with seedCur := 0 }
  | mirostatV2 ctx => mirostatV2 { ctx with seedCur := 0 }
  | grammar ctx => grammar ctx.view
  | penalties ctx => penalties ctx.view
  | chain samplers => chain (viewAll samplers)
  | smpl => smpl

def viewAll [Floats F] : List (Sampler F R) → List (Sampler F R)
  | [] => []
  | smpl :: rest => view smpl :: viewAll rest
end

end Sampler

/-- The counts with a token that comes and the one that goes for it. -/
def Penalties.countsAfter (ctx : Penalties F) (token : Int) : Dict Int Int :=
  let counted : Penalties F := { ctx with tokenCount := ctx.tokenCount.set token (ctx.count token + 1) }
  match ctx.prev.front with
  | none => counted.tokenCount
  | some old =>
    if ctx.penaltyLastN ≤ ctx.prev.sz then
      if counted.count old - 1 = 0 then counted.tokenCount.filter fun e => e.1 ≠ old
      else counted.tokenCount.set old (counted.count old - 1)
    else counted.tokenCount

/-- What becomes of the window and whether there is an exception do not depend on the counts. -/
theorem Penalties.accept_eq (ctx : Penalties F) (token : Int) :
    ctx.accept token =
      if ctx.penaltyLastN = 0 then some ctx
      else if ctx.penaltyLastN ≤ ctx.prev.sz ∧ ctx.prev.front = none then none
      else (ctx.prev.pushBack token).map fun prev =>
        { ctx with prev := prev, tokenCount := ctx.countsAfter token } := by
  rw [accept, countsAfter]
  split
  case isTrue => rfl
  case isFalse =>
    simp only
    cases hfront : ctx.prev.front with
    | none =>
      by_cases hle : ctx.penaltyLastN ≤ ctx.prev.sz
      · simp only [hle, and_self, if_true, Option.map_none, Option.bind_none]
      · simp only [hle, false_and, if_false, Option.bind_some]
    | some old =>
      have hcond : ¬ (ctx.penaltyLastN ≤ ctx.prev.sz ∧ some old = none) :=
        fun hc => absurd hc.2 (by simp)
      rw [if_neg hcond]
      by_cases hle : ctx.penaltyLastN ≤ ctx.prev.sz
      · simp only [hle, if_true, Option.map_some, Option.bind_some]
      · simp only [hle, if_false, Option.bind_some]

section
variable [Floats F]

theorem Penalties.view_of_active {ctx : Penalties F} (h : ctx.Active) : ctx.view = ctx := if_pos h

theorem Penalties.view_of_not {ctx : Penalties F} (h : ¬ ctx.Active) :
    ctx.view = { ctx with tokenCount := [] } := if_neg h

theorem Penalties.view_with {ctx : Penalties F} (h : ¬ ctx.Active) (prev : RingBuffer Int)
    (counts : Dict Int Int) :
    view { ctx with prev := prev, tokenCount := counts } =
      { ctx with prev := prev, tokenCount := [] } := if_neg h

theorem Penalties.view_view (ctx : Penalties F) : ctx.view.view = ctx.view := by
  by_cases h : ctx.Active
  · rw [view_of_active h, view_of_active h]
  · rw [view_of_not h]
    exact view_with h _ _

theorem Penalties.accept_view (ctx : Penalties F) (token : Int) :
    (ctx.view.accept token).map view = (ctx.accept token).map view := by
  by_cases h : ctx.Active
  · rw [view_of_active h]
  · rw [view_of_not h, accept_eq, accept_eq]
    simp only
    split
    case isTrue => rw [Option.map_some, Option.map_some, ← view_of_not h, view_view]
    case isFalse =>
      split
      case isTrue => rfl
      case isFalse =>
        rw [Option.map_map, Option.map_map]
        congr 1
        funext prev
        exact (view_with h prev _).trans (view_with h prev _).symm

theorem Penalties.apply_view (ctx : Penalties F) (cur : Cands F) :
    ctx.view.apply cur = ctx.apply cur := by
  by_cases h : ctx.Active
  · rw [view_of_active h]
  · have hview : ¬ ctx.view.Active := by
      rw [view_of_not h]
      exact h
    rw [apply, if_neg hview, apply, if_neg h]

theorem Penalties.reset_view (ctx : Penalties F) : ctx.view.reset.view = ctx.reset.view := by
  by_cases h : ctx.Active
  · rw [view_of_active h]
  · rw [view_of_not h]
    rfl

theorem Penalties.clone_view {ctx : Penalties F} (h : ctx.Active → ctx.tokenCount = []) :
    ctx.clone.view = ctx.view := by
  have hclone : ctx.clone = { ctx with tokenCount := [] } := by
    rw [clone, init]
    simp
  rw [hclone]
  by_cases hactive : ctx.Active
  · rw [← h hactive]
  · exact (view_with hactive _ _).trans (view_of_not hactive).symm

end

theorem GrammarSampler.accept_view (fuel : Nat) (ctx : GrammarSampler) (token : Int) :
    (ctx.view.accept fuel token).map view = (ctx.accept fuel token).map view := by
  cases hg : ctx.grammar with
  | none => simp only [view, accept, hg, Option.map_some]
  | some g => simp only [view, hg]

theorem GrammarSampler.apply_view [Floats F] (fuel : Nat) (ctx : GrammarSampler) (cur : Cands F) :
    ctx.view.apply fuel cur = ctx.apply fuel cur := by
  cases hg : ctx.grammar with
  | none => simp only [view, apply, hg]
  | some g => simp only [view, hg]

theorem GrammarSampler.reset_view (fuel : Nat) (ctx : GrammarSampler) :
    (ctx.view.reset fuel).map view = (ctx.reset fuel).map view := by
  cases hg : ctx.grammar with
  | none => simp only [view, reset, hg, Option.map_some]
  | some g => simp only [view, hg]

theorem GrammarSampler.clone_view (ctx : GrammarSampler) : ctx.clone.view = ctx.view := by
  cases hg : ctx.grammar with
  | none => simp only [view, clone, hg]
  | some g =>
    have hclone : ctx.clone = { ctx with grammar := some g } := by rw [clone, hg]
    rw [hclone, ← hg]

theorem Dry.clone_eq [Floats F] (ctx : Dry F) : ctx.clone = ctx := by
  rw [clone, init]
  split <;> rfl


/-! A clone behaves like the sampler it was made from. -/

/-- The call of a function on two states that look alike has results that look alike. -/
theorem map_eq_cases {v : α → β} {a b : Option α} (h : a.map v = b.map v) :
    (a = none ∧ b = none) ∨ ∃ x y, a = some x ∧ b = some y ∧ v x = v y := by
  cases a with
  | none =>
    cases b with
    | none => exact .inl ⟨rfl, rfl⟩
    | some y => exact absurd h (by simp)
  | some x =>
    cases b with
    | none => exact absurd h (by simp)
    | some y => exact .inr ⟨x, y, rfl, rfl, Option.some.inj h⟩

section
variable [Floats F] [Random F R W]

theorem Dist.apply_seedCur (ctx : Dist R) (n : Nat) (cur : Cands F) :
    Dist.apply { ctx with seedCur := n } cur =
      ({ (ctx.apply cur).1 with seedCur := n }, (ctx.apply cur).2) := by
  rw [apply, apply]
  split <;> rfl

variable [Sorters F]

theorem Xtc.apply_seedCur (ctx : Xtc F R) (n : Nat) (cur : Cands F) :
    Xtc.apply { ctx with seedCur := n } cur =
      (ctx.apply cur).map fun r => ({ r.1 with seedCur := n }, r.2) := by
  rw [apply, apply]
  simp only
  split
  case isTrue => rfl
  case isFalse =>
    split
    case isTrue => rfl
    case isFalse =>
      rw [Option.map_map]
      congr 1
      funext cur'
      simp only [Function.comp]
      split <;> rfl

theorem Mirostat.apply_seedCur (ctx : Mirostat F R) (n : Nat) (cur : Cands F) :
    Mirostat.apply { ctx with seedCur := n } cur =
      (ctx.apply cur).map fun r => ({ r.1 with seedCur := n }, r.2) := by
  rw [apply, apply, Option.map_bind]
  congr 1
  funext cur'
  simp only [Function.comp, Option.map_map]
  rfl

theorem MirostatV2.apply_seedCur (ctx : MirostatV2 F R) (n : Nat) (cur : Cands F) :
    MirostatV2.apply { ctx with seedCur := n } cur =
      (ctx.apply cur).map fun r => ({ r.1 with seedCur := n }, r.2) := by
  rw [apply, apply, Option.map_bind]
  congr 1
  funext cur'
  simp only [Function.comp, Option.map_map]
  rfl

end

namespace Sampler

section
variable [Floats F]

mutual
theorem accept_view (fuel : Nat) (token : Int) (smpl : Sampler F R) :
    (accept fuel token (view smpl)).map view = (accept fuel token smpl).map view := by
  cases smpl with
  | penalties ctx =>
    have h := congrArg (Option.map (penalties (R := R))) (ctx.accept_view token)
    simpa only [view, accept, Option.map_map, Function.comp_def] using h
  | grammar ctx =>
    have h := congrArg (Option.map (grammar (F := F) (R := R))) (ctx.accept_view fuel token)
    simpa only [view, accept, Option.map_map, Function.comp_def] using h
  | chain samplers =>
    have h := congrArg (Option.map chain) (acceptAll_view fuel token samplers)
    simpa only [view, accept, Option.map_map, Function.comp_def] using h
  | _ => simp [view, accept, Option.map_map, Function.comp_def]

theorem acceptAll_view (fuel : Nat) (token : Int) (samplers : List (Sampler F R)) :
    (acceptAll fuel token (viewAll samplers)).map viewAll =
      (acceptAll fuel token samplers).map viewAll := by
  cases samplers with
  | nil => rfl
  | cons smpl rest =>
    rw [viewAll, acceptAll, acceptAll]
    rcases map_eq_cases (accept_view fuel token smpl) with ⟨h, h'⟩ | ⟨a, b, h, h', hab⟩
    · rw [h, h']
      rfl
    · have hrest := congrArg (Option.map (view b :: ·)) (acceptAll_view fuel token rest)
      rw [h, h', Option.bind_some, Option.bind_some]
      simpa only [Option.map_map, Function.comp_def, viewAll, hab] using hrest
end

variable [Random F R W]

def viewReset (r : Sampler F R × W) : Sampler F R × W := (view r.1, r.2)

def viewAllReset (r : List (Sampler F R) × W) : List (Sampler F R) × W := (viewAll r.1, r.2)

mutual
theorem reset_view (fuel : Nat) (smpl : Sampler F R) (w : W) :
    (reset fuel (view smpl) w).map viewReset = (reset fuel smpl w).map viewReset := by
  cases smpl with
  | grammar ctx =>
    have h := congrArg (Option.map fun g => ((grammar g : Sampler F R), w)) (ctx.reset_view fuel)
    rw [Option.map_map, Option.map_map] at h
    rw [view, reset, reset, Option.map_map, Option.map_map]
    exact h
  | penalties ctx =>
    rw [view, reset, reset]
    simp only [Option.map_some, viewReset, view, ctx.reset_view]
  | chain samplers =>
    have h := congrArg (Option.map fun r : List (Sampler F R) × W => (chain r.1, r.2))
      (resetAll_view fuel samplers w)
    rw [view, reset, reset, Option.map_map, Option.map_map]
    rw [Option.map_map, Option.map_map] at h
    exact h
  | _ => rfl

theorem resetAll_view (fuel : Nat) (samplers : List (Sampler F R)) (w : W) :
    (resetAll fuel (viewAll samplers) w).map viewAllReset =
      (resetAll fuel samplers w).map viewAllReset := by
  cases samplers with
  | nil => rfl
  | cons smpl rest =>
    rw [viewAll, resetAll, resetAll]
    rcases map_eq_cases (reset_view fuel smpl w) with ⟨h, h'⟩ | ⟨a, b, h, h', hab⟩
    · rw [h, h']
      rfl
    · obtain ⟨hv, hw⟩ := Prod.mk.inj hab
      have hrest := congrArg
        (Option.map fun q : List (Sampler F R) × W => (view b.1 :: q.1, q.2))
        (resetAll_view fuel rest b.2)
      rw [Option.map_map, Option.map_map] at hrest
      rw [h, h', Option.bind_some, Option.bind_some, hw, Option.map_map, Option.map_map]
      simpa only [Function.comp_def, viewAllReset, viewAll, hv] using hrest
end

mutual
/-- The state that the clone of a penalties or a mirostat sampler loses is not there: nothing is
counted, and the running values are those of a sampler just made from its seed. -/
def NothingToLose : Sampler F R → Prop
  | penalties ctx => ctx.Active → ctx.tokenCount = []
  | mirostat ctx => ctx.mu = mul (ofRat 2) ctx.tau ∧ ctx.seed ≠ defaultSeed ∧
      ctx.rng = Random.seeded ctx.seed
  | chain samplers => NothingToLoseAll samplers
  | _ => True

def NothingToLoseAll : List (Sampler F R) → Prop
  | [] => True
  | smpl :: rest => NothingToLose smpl ∧ NothingToLoseAll rest
end

mutual
/-- Making a clone leaves the original as it is. -/
theorem clone_original (smpl : Sampler F R) (w : W) : (clone smpl w).original = smpl := by
  cases smpl with
  | chain samplers => exact congrArg chain (cloneAll_original samplers w)
  | _ => rfl

theorem cloneAll_original (samplers : List (Sampler F R)) (w : W) :
    (cloneAll samplers w).original = samplers := by
  cases samplers with
  | nil => rfl
  | cons smpl rest =>
    exact congrArg₂ List.cons (clone_original smpl w) (cloneAll_original rest _)
end

mutual
theorem clone_view {smpl : Sampler F R} (h : smpl.NothingToLose) (w : W) :
    view (clone smpl w).clone = view smpl := by
  cases smpl with
  | penalties ctx => exact congrArg penalties (Penalties.clone_view h)
  | grammar ctx => exact congrArg grammar ctx.clone_view
  | dry ctx => exact congrArg dry ctx.clone_eq
  | mirostat ctx =>
    obtain ⟨hmu, hseed, hrng⟩ := h
    rw [clone, Mirostat.clone, Mirostat.init, getRngSeed, if_neg hseed]
    simp only [view, ← hmu, ← hrng]
  | chain samplers => exact congrArg chain (cloneAll_view h w)
  | _ => rfl

theorem cloneAll_view {samplers : List (Sampler F R)} (h : NothingToLoseAll samplers) (w : W) :
    viewAll (cloneAll samplers w).clone = viewAll samplers := by
  cases samplers with
  | nil => rfl
  | cons smpl rest => exact congrArg₂ List.cons (clone_view h.1 w) (cloneAll_view h.2 _)
end

variable [Sorters F]

/-- What is seen of the result of applying a sampler. -/
def viewApplied (r : Sampler F R × Cands F) : Sampler F R × Cands F := (view r.1, r.2)

def viewAllApplied (r : List (Sampler F R) × Cands F) : List (Sampler F R) × Cands F :=
  (viewAll r.1, r.2)

mutual
theorem apply_view (fuel : Nat) (smpl : Sampler F R) (cur : Cands F) :
    (apply fuel (view smpl) cur).map viewApplied = (apply fuel smpl cur).map viewApplied := by
  cases smpl with
  | dist ctx =>
    rw [view, apply, apply, Dist.apply_seedCur]
    rfl
  | xtc ctx =>
    rw [view, apply, apply, Xtc.apply_seedCur, Option.map_map, Option.map_map, Option.map_map]
    rfl
  | mirostat ctx =>
    rw [view, apply, apply, Mirostat.apply_seedCur, Option.map_map, Option.map_map,
      Option.map_map]
    rfl
  | mirostatV2 ctx =>
    rw [view, apply, apply, MirostatV2.apply_seedCur, Option.map_map, Option.map_map,
      Option.map_map]
    rfl
  | grammar ctx =>
    have hview : ctx.view.view = ctx.view := by
      cases hg : ctx.grammar with
      | none => simp only [GrammarSampler.view, hg]
      | some g => simp only [GrammarSampler.view, hg]
    rw [view, apply, apply, ctx.apply_view, Option.map_map, Option.map_map]
    congr 1
    funext cur'
    simp only [Function.comp, viewApplied, view, hview]
  | penalties ctx =>
    rw [view, apply, apply, ctx.apply_view]
    simp only [Option.map_some, viewApplied, view, ctx.view_view]
  | chain samplers =>
    have h := congrArg (Option.map fun r : List (Sampler F R) × Cands F => (chain r.1, r.2))
      (applyAll_view fuel samplers cur)
    rw [view, apply, apply, Option.map_map, Option.map_map]
    rw [Option.map_map, Option.map_map] at h
    exact h
  | _ => rfl

theorem applyAll_view (fuel : Nat) (samplers : List (Sampler F R)) (cur : Cands F) :
    (applyAll fuel (viewAll samplers) cur).map viewAllApplied =
      (applyAll fuel samplers cur).map viewAllApplied := by
  cases samplers with
  | nil => rfl
  | cons smpl rest =>
    rw [viewAll, applyAll, applyAll]
    rcases map_eq_cases (apply_view fuel smpl cur) with ⟨h, h'⟩ | ⟨a, b, h, h', hab⟩
    · rw [h, h']
      rfl
    · obtain ⟨hv, hcur⟩ := Prod.mk.inj hab
      have hrest := congrArg
        (Option.map fun q : List (Sampler F R) × Cands F => (view b.1 :: q.1, q.2))
        (applyAll_view fuel rest b.2)
      rw [Option.map_map, Option.map_map] at hrest
      rw [h, h', Option.bind_some, Option.bind_some, hcur, Option.map_map, Option.map_map]
      simpa only [Function.comp_def, viewAllApplied, viewAll, hv] using hrest
end

/-- A call on a sampler. -/
inductive Call (F : Type) where
  | accept (token : Int)
  | apply (cur : Cands F)
  | reset

/-- What later calls return: the candidates with the selection of every application, up to the
first call that fails. -/
def observe (fuel : Nat) : Sampler F R → W → List (Call F) → List (Option (Cands F))
  | _, _, [] => []
  | smpl, w, .accept token :: calls =>
    match accept fuel token smpl with
    | none => [none]
    | some smpl => observe fuel smpl w calls
  | smpl, w, .apply cur :: calls =>
    match apply fuel smpl cur with
    | none => [none]
    | some r => some r.2 :: observe fuel r.1 w calls
  | smpl, w, .reset :: calls =>
    match reset fuel smpl w with
    | none => [none]
    | some r => observe fuel r.1 r.2 calls

/-- Samplers that look alike return the same. -/
theorem observe_congr {smpl smpl' : Sampler F R} (h : view smpl = view smpl') (w : W)
    (calls : List (Call F)) : observe fuel smpl w calls = observe fuel smpl' w calls := by
  induction calls generalizing smpl smpl' w with
  | nil => rfl
  | cons call calls ih =>
    cases call with
    | accept token =>
      have hcall := (accept_view fuel token smpl).symm.trans (h ▸ accept_view fuel token smpl')
      rw [observe, observe]
      rcases map_eq_cases hcall with ⟨ha, hb⟩ | ⟨a, b, ha, hb, hab⟩
      · rw [ha, hb]
      · rw [ha, hb]
        exact ih hab w
    | apply cur =>
      have hcall := (apply_view fuel smpl cur).symm.trans (h ▸ apply_view fuel smpl' cur)
      rw [observe, observe]
      rcases map_eq_cases hcall with ⟨ha, hb⟩ | ⟨a, b, ha, hb, hab⟩
      · rw [ha, hb]
      · obtain ⟨hv, hcur⟩ := Prod.mk.inj hab
        rw [ha, hb]
        simp only [hcur, ih hv w]
    | reset =>
      have hcall := (reset_view fuel smpl w).symm.trans (h ▸ reset_view fuel smpl' w)
      rw [observe, observe]
      rcases map_eq_cases hcall with ⟨ha, hb⟩ | ⟨a, b, ha, hb, hab⟩
      · rw [ha, hb]
      · obtain ⟨hv, hw⟩ := Prod.mk.inj hab
        rw [ha, hb]
        simp only [hw, ih hv b.2]

/-- The clone of a sampler in any state returns what the original would have returned, and the
original is as before. -/
theorem clone_observe {smpl : Sampler F R} (h : smpl.NothingToLose) (w w' : W)
    (calls : List (Call F)) :
    observe fuel (clone smpl w).clone w' calls = observe fuel smpl w' calls ∧
      (clone smpl w).original = smpl :=
  ⟨observe_congr (clone_view h w) w' calls, clone_original smpl w⟩

end

/-- A chain in use, with a chain in it whose samplers are as they were made. -/
def chainInUse : Sampler Exact Nat :=
  chain [dist ⟨7, 7, Exact.step 7⟩,
    chain [penalties (.init 4 (some 2) (some 0) (some 0)),
      mirostat ⟨32000, 3, 3, some 5, some (1 / 10), 100, some 10, 3⟩],
    dry (.init 8 (some 1) (some 2) 1 (-1) [(3, [])])]

/-- One candidate. -/
def oneToken (id : Int) : Cands Exact := ⟨[⟨id, some 4, some 0⟩], -1, false⟩

theorem chainInUse_clone :
    observe 0 (clone chainInUse 0).clone 5 [.reset, .accept 2, .apply (oneToken 2)] =
      observe 0 chainInUse 5 [.reset, .accept 2, .apply (oneToken 2)] ∧
    (clone chainInUse 0).original = chainInUse := by
  apply clone_observe
  refine ⟨trivial, ⟨fun _ => rfl, ⟨?_, by decide, rfl⟩, trivial⟩, trivial, trivial⟩
  decide +kernel

/-- A sampler that halves the logits of the last four tokens. -/
def halving : Sampler Exact Nat := penalties (.init 4 (some 2) (some 0) (some 0))

/-- The clone of a penalties sampler that has accepted a token does not penalize it. -/
theorem penalties_clone_forgets :
    ∃ smpl, accept 0 5 halving = some smpl ∧
      observe 0 (clone smpl 0).clone 0 [.apply (oneToken 5)] ≠
        observe 0 smpl 0 [.apply (oneToken 5)] := by
  refine ⟨_, rfl, ?_⟩
  decide +kernel

end Sampler
end ActQuant.Sampling
