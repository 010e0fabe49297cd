import ActQuant.Pi05.PrefixCache
import Mathlib.Data.Rat.Floor
import Mathlib.Tactic.Positivity

namespace ActQuant.Pi05
open ActQuant.Lib

/-- The scalar arithmetic of attention: rotations, and the weighted sum over the keys. -/
structure Kernels (Q K V A F G : Type) where
  ropeQ : Nat → Q → Q
  ropeK : Nat → K → K
  attend : Q → List (K × V) → A
  gelu : F → F
  expertGelu : G → G

/-- The three parts a conditioning row is projected to. -/
structure Modulation (S : Type) where
  scale : S
  shift : S
  gate : S

/-- `GemmaJointLayer`: the row-wise maps of the prefix's weights and of the expert's. -/
structure GemmaJointLayer (P S Q K V A F G C : Type) where
  paliAttnNorm : P → P
  paliQ : P → Q
  paliK : P → K
  paliV : P → V
  paliO : A → P
  paliFfnNorm : P → P
  paliGate : P → F
  paliUp : P → F
  paliDown : F → P
  expertAttnAdaln : C → Modulation S
  expertQ : S → Q
  expertK : S → K
  expertV : S → V
  expertO : A → S
  expertFfnAdaln : C → Modulation S
  expertGate : S → G
  expertUp : S → G
  expertDown : G → S

variable {P S Q K V A F G C : Type}

/-- The key/value pairs a query's mask row lets through. -/
def visible (kvs : List (K × V)) (row : List MaskValue) : List (K × V) :=
  ((kvs.zip row).filter fun e => e.2 = .zero).map Prod.fst

def buildGqaAttention (kern : Kernels Q K V A F G) (q : List Q) (k : List K) (v : List V)
    (mask : List MaskValue) : List A :=
  q.mapIdx fun i row => kern.attend row (visible (k.zip v) (maskRow mask k.length i))

section Layers
variable [Add P] [Add S] [Mul S] [Mul F] [Mul G] (kern : Kernels Q K V A F G) (rms : S → S)

/-- `build_ada_rms_norm`, of which the gate is used by the residual. -/
def buildAdaRmsNorm (m : Modulation S) (x : S) : S := rms x + rms x * m.scale + m.shift

def paliMlp (layer : GemmaJointLayer P S Q K V A F G C) (x : P) : P :=
  let mlpIn := layer.paliFfnNorm x
  x + layer.paliDown (kern.gelu (layer.paliGate mlpIn) * layer.paliUp mlpIn)

def expertMlp (layer : GemmaJointLayer P S Q K V A F G C) (cond : C) (x : S) : S :=
  let m := layer.expertFfnAdaln cond
  let mlpIn := buildAdaRmsNorm rms m x
  x + layer.expertDown (kern.expertGelu (layer.expertGate mlpIn) * layer.expertUp mlpIn) * m.gate

def buildJointLayerForward (positions : List Nat) (attnMask : List MaskValue) (cond : C)
    (layer : GemmaJointLayer P S Q K V A F G C) (hidden : List P × List S) : List P × List S :=
  let nPrefix := hidden.1.length
  let prefixNormed := hidden.1.map layer.paliAttnNorm
  let m := layer.expertAttnAdaln cond
  let suffixNormed := hidden.2.map (buildAdaRmsNorm rms m)
  let fullQ := prefixNormed.map layer.paliQ ++ suffixNormed.map layer.expertQ
  let fullK := prefixNormed.map layer.paliK ++ suffixNormed.map layer.expertK
  let fullV := prefixNormed.map layer.paliV ++ suffixNormed.map layer.expertV
  let fullQ := List.zipWith kern.ropeQ positions fullQ
  let fullK := List.zipWith kern.ropeK positions fullK
  let fullAttnOut := buildGqaAttention kern fullQ fullK fullV attnMask
  let prefixAttnOut := (fullAttnOut.take nPrefix).map layer.paliO
  let suffixAttnOut := (fullAttnOut.drop nPrefix).map layer.expertO
  ((List.zipWith (· + ·) hidden.1 prefixAttnOut).map (paliMlp kern layer),
    (List.zipWith (fun x a => x + a * m.gate) hidden.2 suffixAttnOut).map
      (expertMlp kern rms layer cond))

/-- The prefix's output, and the keys and values kept of the layer. -/
def buildPrefixLayerForward (positions : List Nat) (attnMask : List MaskValue)
    (layer : GemmaJointLayer P S Q K V A F G C) (prefixHidden : List P) :
    List P × List K × List V :=
  let prefixNormed := prefixHidden.map layer.paliAttnNorm
  let prefixQ := List.zipWith kern.ropeQ positions (prefixNormed.map layer.paliQ)
  let kCache := List.zipWith kern.ropeK positions (prefixNormed.map layer.paliK)
  let vCache := prefixNormed.map layer.paliV
  let prefixAttnOut := (buildGqaAttention kern prefixQ kCache vCache attnMask).map layer.paliO
  ((List.zipWith (· + ·) prefixHidden prefixAttnOut).map (paliMlp kern layer), kCache, vCache)

def buildSuffixLayerWithCache (suffixPositions : List Nat) (attnMask : List MaskValue) (cond : C)
    (layer : GemmaJointLayer P S Q K V A F G C) (kCache : List K) (vCache : List V)
    (suffixHidden : List S) : List S :=
  let m := layer.expertAttnAdaln cond
  let suffixNormed := suffixHidden.map (buildAdaRmsNorm rms m)
  let suffixQ := List.zipWith kern.ropeQ suffixPositions (suffixNormed.map layer.expertQ)
  let suffixK := List.zipWith kern.ropeK suffixPositions (suffixNormed.map layer.expertK)
  let suffixV := suffixNormed.map layer.expertV
  let fullK := kCache ++ suffixK
  let fullV := vCache ++ suffixV
  let suffixAttnOut :=
    (buildGqaAttention kern suffixQ fullK fullV attnMask).map layer.expertO
  (List.zipWith (fun x a => x + a * m.gate) suffixHidden suffixAttnOut).map
    (expertMlp kern rms layer cond)

/-- The joint pass of `Pi05ActionExpert::build_graph`, over all layers. -/
def jointForward (layers : List (GemmaJointLayer P S Q K V A F G C)) (positions : List Nat)
    (attnMask : List MaskValue) (cond : C) (hidden : List P × List S) : List P × List S :=
  layers.foldl (fun hidden layer =>
    buildJointLayerForward kern rms positions attnMask cond layer hidden) hidden

/-- The keys and values `PrefixCacheModel` writes, layer by layer. -/
def prefixForward (positions : List Nat) (attnMask : List MaskValue) :
    List (GemmaJointLayer P S Q K V A F G C) → List P → List (List K × List V)
  | [], _ => []
  | layer :: layers, prefixHidden =>
    let result := buildPrefixLayerForward kern positions attnMask layer prefixHidden
    result.2 :: prefixForward positions attnMask layers result.1

/-- The pass of `SuffixCacheModel` over the kept keys and values. -/
def suffixForward (suffixPositions : List Nat) (attnMask : List MaskValue) (cond : C)
    (layers : List (GemmaJointLayer P S Q K V A F G C)) (caches : List (List K × List V))
    (suffixHidden : List S) : List S :=
  (layers.zip caches).foldl (fun suffixHidden l =>
    buildSuffixLayerWithCache kern rms suffixPositions attnMask cond l.1 l.2.1 l.2.2 suffixHidden)
    suffixHidden

end Layers

section Visible
variable {kvs kvs' : List (K × V)}

theorem visible_zero (h : kvs.length = n) : visible kvs (List.replicate n .zero) = kvs := by
  subst h
  induction kvs with
  | nil => rfl
  | cons kv kvs ih =>
    rw [visible, List.length_cons, List.replicate_succ, List.zip_cons_cons,
      List.filter_cons_of_pos (by rfl), List.map_cons]
    exact congrArg (kv :: ·) ih

theorem visible_negInf (m : Nat) : visible kvs (List.replicate m .negInf) = [] := by
  rw [visible, List.map_eq_nil_iff, List.filter_eq_nil_iff]
  intro e he
  have hneg := List.eq_of_mem_replicate (List.of_mem_zip he).2
  rw [hneg]
  decide

theorem visible_zero_negInf (h : kvs.length = n) (m : Nat) :
    visible (kvs ++ kvs') (List.replicate n .zero ++ List.replicate m .negInf) = kvs := by
  have hzero := visible_zero h
  have hneg : visible kvs' (List.replicate m .negInf) = [] := visible_negInf m
  rw [visible] at hzero hneg ⊢
  rw [List.zip_append (by rw [h, List.length_replicate]), List.filter_append, List.map_append,
    hzero, hneg, List.append_nil]

end Visible

section Attention
variable {kern : Kernels Q K V A F G} {qs qs' : List Q} {ks ks' : List K} {vs vs' : List V}

theorem attend_mapIdx {kvs : List (K × V)} {seen : Nat → List (K × V)}
    (h : ∀ i < qs.length, seen i = kvs) :
    qs.mapIdx (fun i q => kern.attend q (seen i)) = qs.map fun q => kern.attend q kvs := by
  refine List.ext_getElem ?_ fun i _ hi => ?_
  · rw [List.length_mapIdx, List.length_map]
  · rw [List.length_map] at hi
    simp only [List.getElem_mapIdx, List.getElem_map, h i hi]

theorem length_zip_eq (hk : ks.length = n) (hv : vs.length = n) : (ks.zip vs).length = n := by
  rw [List.length_zip, hk, hv, Nat.min_self]

/-- A prefix query of the joint attention sees the prefix alone, a suffix query sees everything. -/
theorem gqa_joint (hq : qs.length = n) (hk : ks.length = n) (hv : vs.length = n)
    (hq' : qs'.length = m) (hk' : ks'.length = m) (hv' : vs'.length = m) :
    buildGqaAttention kern (qs ++ qs') (ks ++ ks') (vs ++ vs') (fillJointAttnMask n m) =
      qs.map (fun q => kern.attend q (ks.zip vs)) ++
        qs'.map (fun q => kern.attend q ((ks ++ ks').zip (vs ++ vs'))) := by
  have hks : (ks ++ ks').length = n + m := by rw [List.length_append, hk, hk']
  have hvs : (vs ++ vs').length = n + m := by rw [List.length_append, hv, hv']
  rw [buildGqaAttention, List.mapIdx_append, hks]
  congr 1
  · refine attend_mapIdx fun i hi => ?_
    rw [maskRow_joint_first (hq ▸ hi), List.zip_append (hk.trans hv.symm),
      visible_zero_negInf (length_zip_eq hk hv)]
  · refine attend_mapIdx fun i hi => ?_
    rw [Nat.add_comm i, hq, maskRow_joint_suffix (hq' ▸ hi), visible_zero (length_zip_eq hks hvs)]

theorem gqa_prefix (hq : qs.length = n) (hk : ks.length = n) (hv : vs.length = n) :
    buildGqaAttention kern qs ks vs (fillPrefixAttnMask n (-1) (-1)) =
      qs.map fun q => kern.attend q (ks.zip vs) := by
  refine attend_mapIdx fun i hi => ?_
  rw [hk, maskRow_prefix (hq ▸ hi), visible_zero (length_zip_eq hk hv)]

theorem gqa_suffix (hq' : qs'.length = m) (hk : ks.length = n + m) (hv : vs.length = n + m) :
    buildGqaAttention kern qs' ks vs (fillSuffixAttnMask n m (-1) (-1)) =
      qs'.map fun q => kern.attend q (ks.zip vs) := by
  refine attend_mapIdx fun i hi => ?_
  rw [hk, maskRow_suffix_unmasked (hq' ▸ hi), visible_zero (length_zip_eq hk hv)]

end Attention

/-- The positions `compute_kv_cache` gives the suffix. -/
def suffixPositions (nPrefix nSuffix : Nat) : List Nat := (List.range nSuffix).map (nPrefix + ·)

section Agreement
variable [Add P] [Add S] [Mul S] [Mul F] [Mul G] {kern : Kernels Q K V A F G} {rms : S → S}
  {layer : GemmaJointLayer P S Q K V A F G C} {ps : List P} {ss : List S}

/-- A joint layer is the prefix layer beside the suffix layer over the prefix's keys and values. -/
theorem jointLayer_eq (cond : C) (hp : ps.length = n) (hs : ss.length = m) :
    buildJointLayerForward kern rms (List.range (n + m)) (fillJointAttnMask n m) cond layer
        (ps, ss) =
      let pre := buildPrefixLayerForward kern (List.range n) (fillPrefixAttnMask n (-1) (-1))
        layer ps
      (pre.1, buildSuffixLayerWithCache kern rms (suffixPositions n m)
        (fillSuffixAttnMask n m (-1) (-1)) cond layer pre.2.1 pre.2.2 ss) := by
  have hrange : List.range (n + m) = List.range n ++ suffixPositions n m := List.range_add
  have hpos : (suffixPositions n m).length = m := by
    rw [suffixPositions, List.length_map, List.length_range]
  simp only [buildJointLayerForward, buildPrefixLayerForward, buildSuffixLayerWithCache, hrange]
  rw [List.zipWith_append (by simp only [List.length_map, List.length_range, hp]),
    List.zipWith_append (by simp only [List.length_map, List.length_range, hp])]
  rw [gqa_joint, gqa_prefix, gqa_suffix, hp]
  · rw [List.take_left', List.drop_left']
    all_goals simp only [List.length_map, List.length_zipWith, List.length_range, hp, Nat.min_self]
  all_goals simp only [List.length_append, List.length_map, List.length_zipWith, List.length_range,
    hp, hs, hpos, Nat.min_self]

omit [Add S] [Mul S] [Mul G] in
theorem length_prefixLayer (hp : ps.length = n) :
    (buildPrefixLayerForward kern (List.range n) mask layer ps).1.length = n := by
  simp only [buildPrefixLayerForward, buildGqaAttention, List.length_map, List.length_zipWith,
    List.length_mapIdx, List.length_range, hp, Nat.min_self]

omit [Add P] [Mul F] in
theorem length_suffixLayer (hs : ss.length = m) (cond : C) :
    (buildSuffixLayerWithCache kern rms (suffixPositions n m) mask cond layer kCache vCache
      ss).length = m := by
  simp only [buildSuffixLayerWithCache, buildGqaAttention, suffixPositions, List.length_map,
    List.length_zipWith, List.length_mapIdx, List.length_range, hs, Nat.min_self]

/-- Over all layers the suffix rows are those of the cached pass. -/
theorem jointForward_suffix (layers : List (GemmaJointLayer P S Q K V A F G C)) (cond : C)
    (hp : ps.length = n) (hs : ss.length = m) :
    (jointForward kern rms layers (List.range (n + m)) (fillJointAttnMask n m) cond (ps, ss)).2 =
      suffixForward kern rms (suffixPositions n m) (fillSuffixAttnMask n m (-1) (-1)) cond layers
        (prefixForward kern (List.range n) (fillPrefixAttnMask n (-1) (-1)) layers ps) ss := by
  induction layers generalizing ps ss with
  | nil => rfl
  | cons layer layers ih =>
    rw [jointForward, List.foldl_cons, jointLayer_eq cond hp hs, ← jointForward]
    rw [ih (length_prefixLayer hp) (length_suffixLayer hs cond)]
    rfl

end Agreement

/-- `Pi05ActionExpert`: the joint layers, and the maps at both ends of the graph. -/
structure ActionExpert (P S Q K V A F G C X T : Type) where
  kern : Kernels Q K V A F G
  rms : S → S
  layers : List (GemmaJointLayer P S Q K V A F G C)
  actionHorizon : Nat
  timestepMlp : T → C
  actionIn : X → S
  outputAdaln : C → Modulation S
  actionOut : S → X
  sinusoidalEmbedding : ℚ → T

section Sampling
variable {X T : Type} [Add P] [AddCommMonoid S] [Mul S] [Mul F] [Mul G] [Add X] [SMul ℚ X]
  (E : ActionExpert P S Q K V A F G C X T)

/-- `apply_adaln`, which adds in the other order. -/
def applyAdaln (m : Modulation S) (x : S) : S := E.rms x * m.scale + E.rms x + m.shift

/-- The velocity of `run`: one joint pass over the prefix and the actions. -/
def runJoint (vlmHidden : List P) (noisyActions : List X) (timestepEmb : T) : List X :=
  let nPrefix := vlmHidden.length
  let nSuffix := noisyActions.length
  let cond := E.timestepMlp timestepEmb
  let out := jointForward E.kern E.rms E.layers (List.range (nPrefix + nSuffix))
    (fillJointAttnMask nPrefix nSuffix) cond (vlmHidden, noisyActions.map E.actionIn)
  out.2.map fun x => E.actionOut (applyAdaln E (E.outputAdaln cond) x)

/-- The K/V `compute_kv_cache` leaves, without a masked range. -/
def kvCache (prefixHidden : List P) : List (List K × List V) :=
  let nPrefix := prefixHidden.length
  prefixForward E.kern (List.range nPrefix) (fillPrefixAttnMask nPrefix (-1) (-1)) E.layers
    prefixHidden

/-- The velocity of `run_with_cache`. -/
def velocityWithCache (nPrefix : Nat) (cache : List (List K × List V)) (noisyActions : List X)
    (timestepEmb : T) : List X :=
  let nSuffix := noisyActions.length
  let cond := E.timestepMlp timestepEmb
  let out := suffixForward E.kern E.rms (suffixPositions nPrefix nSuffix)
    (fillSuffixAttnMask nPrefix nSuffix (-1) (-1)) cond E.layers cache
    (noisyActions.map E.actionIn)
  out.map fun x => E.actionOut (buildAdaRmsNorm E.rms (E.outputAdaln cond) x)

/-- One turn of the Euler integration from `t = 1` to `t = 0`. -/
def eulerStep (velocity : List X → T → List X) (numSteps : Nat) (s : ℚ × List X) :
    Option (ℚ × List X) :=
  let dt : ℚ := -1 / numSteps
  -- Without steps `dt` is minus infinity, and the loop is not entered.
  if numSteps ≠ 0 ∧ -dt / 2 ≤ s.1 then
    let v := velocity s.2 (E.sinusoidalEmbedding s.1)
    some (s.1 + dt, List.zipWith (fun x v => x + dt • v) s.2 v)
  else none

/-- The integration, from the seeded draws the actions start with. -/
def integrate (velocity : List X → T → List X) (gaussian : Nat → X) (numSteps : Nat) :
    ℚ × List X :=
  loop (eulerStep E velocity numSteps) numSteps (1, (List.range E.actionHorizon).map gaussian)

def sampleActions (gaussian : Nat → X) (numSteps : Nat) (vlmHidden : List P) : List X :=
  (integrate E (runJoint E vlmHidden) gaussian numSteps).2

def sampleActionsWithCache (gaussian : Nat → X) (numSteps : Nat) (prefixHidden : List P) :
    List X :=
  let cache := kvCache E prefixHidden
  (integrate E (velocityWithCache E prefixHidden.length cache) gaussian numSteps).2

variable {E}

omit [Add P] [AddCommMonoid S] [Mul S] [Mul F] [Mul G] in
theorem eulerStep_eq_some {velocity : List X → T → List X}
    (h : eulerStep E velocity numSteps s = some s') :
    0 < s.1 * numSteps ∧ s'.1 * numSteps = s.1 * numSteps - 1 := by
  simp only [eulerStep, Option.ite_none_right_eq_some, Option.some.injEq] at h
  obtain ⟨⟨hsteps, hguard⟩, rfl⟩ := h
  have hpos : (0 : ℚ) < numSteps := Nat.cast_pos.2 (Nat.pos_of_ne_zero hsteps)
  refine ⟨mul_pos (lt_of_lt_of_le ?_ hguard) hpos, ?_⟩
  · rw [neg_div (numSteps : ℚ) 1, neg_neg]
    positivity
  · rw [add_mul, div_mul_cancel₀ _ hpos.ne', sub_eq_add_neg]

omit [Add P] [AddCommMonoid S] [Mul S] [Mul F] [Mul G] in
/-- The integration's steps are enough for `t` to have reached the end. -/
theorem integrate_stopped (velocity : List X → T → List X) (gaussian : Nat → X) (numSteps : Nat) :
    eulerStep E velocity numSteps (integrate E velocity gaussian numSteps) = none := by
  refine loop_stopped (I := fun _ => True) (fun s => ⌈s.1 * numSteps⌉₊) (fun _ _ => trivial)
    (fun _ hs => ?_) trivial ?_
  · obtain ⟨hpos, hnext⟩ := eulerStep_eq_some hs
    have hceil := Nat.ceil_pos.2 hpos
    rw [hnext, Nat.ceil_sub_one]
    omega
  · rw [one_mul, Nat.ceil_natCast]

omit [Add P] [Mul F] [Mul G] [Add X] [SMul ℚ X] in
theorem applyAdaln_eq (m : Modulation S) (x : S) :
    applyAdaln E m x = buildAdaRmsNorm E.rms m x := by
  rw [applyAdaln, buildAdaRmsNorm, add_comm (E.rms x * m.scale)]

omit [Add X] [SMul ℚ X] in
theorem velocityWithCache_eq (prefixHidden : List P) :
    velocityWithCache E prefixHidden.length (kvCache E prefixHidden) = runJoint E prefixHidden := by
  funext noisyActions timestepEmb
  simp only [velocityWithCache, runJoint, kvCache, applyAdaln_eq]
  rw [jointForward_suffix E.layers _ rfl (List.length_map _)]

end Sampling

end ActQuant.Pi05
