import ActQuant.Lib.Partition
import ActQuant.Lib.Run

namespace ActQuant.Pi05
open ActQuant.Lib

/-- The two values of an attention mask: zero attends, minus infinity does not. -/
inductive MaskValue where
  | zero | negInf
  deriving DecidableEq

/-- The rows of a mask one after the other, the key index running fastest. -/
def fillMask (nQuery nKv : Nat) (value : Nat → Nat → MaskValue) : List MaskValue :=
  (List.range nQuery).flatMap fun i => (List.range nKv).map fun j => value i j

def fillJointAttnMask (nPrefix nSuffix : Nat) : List MaskValue :=
  fillMask (nPrefix + nSuffix) (nPrefix + nSuffix) fun i j =>
    if i < nPrefix ∧ nPrefix ≤ j then .negInf else .zero

def fillSuffixAttnMask (nPrefix nSuffix : Nat) (maskedStart maskedEnd : Int) : List MaskValue :=
  fillMask nSuffix (nPrefix + nSuffix) fun _ j =>
    if 0 ≤ maskedStart ∧ maskedStart ≤ j ∧ j < maskedEnd then .negInf else .zero

/-- The mask `PrefixCacheSession::run_gpu` fills. -/
def fillPrefixAttnMask (nPrefix : Nat) (maskedStart maskedEnd : Int) : List MaskValue :=
  if 0 ≤ maskedStart ∧ maskedStart < maskedEnd then
    fillMask nPrefix nPrefix fun i j =>
      if (maskedStart ≤ i ∧ i < maskedEnd) ∨ (maskedStart ≤ j ∧ j < maskedEnd) then .negInf
      else .zero
  else List.replicate (nPrefix * nPrefix) .zero

/-- The values of one query over the keys. -/
def maskRow (mask : List MaskValue) (nKv i : Nat) : List MaskValue :=
  slice mask (i * nKv) (i * nKv + nKv)

theorem maskRow_fillMask {value : Nat → Nat → MaskValue} (hi : i < nQuery) :
    maskRow (fillMask nQuery nKv value) nKv i = (List.range nKv).map (value i) :=
  slice_flatMap_range (fun _ _ => by rw [List.length_map, List.length_range]) hi

theorem map_range_eq_replicate {value : Nat → MaskValue} (h : ∀ j < n, value j = v) :
    (List.range n).map value = List.replicate n v := by
  rw [List.eq_replicate_iff]
  refine ⟨by rw [List.length_map, List.length_range], ?_⟩
  intro w hw
  obtain ⟨j, hj, rfl⟩ := List.mem_map.1 hw
  exact h j (List.mem_range.1 hj)

/-- A query without a masked range attends to every key. -/
theorem maskRow_suffix_unmasked (hi : i < nSuffix) :
    maskRow (fillSuffixAttnMask nPrefix nSuffix (-1) (-1)) (nPrefix + nSuffix) i =
      List.replicate (nPrefix + nSuffix) .zero := by
  rw [fillSuffixAttnMask, maskRow_fillMask hi]
  exact map_range_eq_replicate fun j _ => if_neg (by omega)

theorem maskRow_joint_suffix (hi : i < nSuffix) :
    maskRow (fillJointAttnMask nPrefix nSuffix) (nPrefix + nSuffix) (nPrefix + i) =
      List.replicate (nPrefix + nSuffix) .zero := by
  rw [fillJointAttnMask, maskRow_fillMask (by omega)]
  exact map_range_eq_replicate fun j _ => if_neg (by omega)

/-- A prefix query attends to the prefix and to no key of the suffix. -/
theorem maskRow_joint_first (hi : i < nPrefix) :
    maskRow (fillJointAttnMask nPrefix nSuffix) (nPrefix + nSuffix) i =
      List.replicate nPrefix .zero ++ List.replicate nSuffix .negInf := by
  rw [fillJointAttnMask, maskRow_fillMask (by omega), List.range_add, List.map_append,
    List.map_map]
  congr 1
  · exact map_range_eq_replicate fun j hj => if_neg (by omega)
  · exact map_range_eq_replicate fun j _ => if_pos ⟨hi, Nat.le_add_right _ _⟩

theorem maskRow_prefix (hi : i < nPrefix) :
    maskRow (fillPrefixAttnMask nPrefix (-1) (-1)) nPrefix i = List.replicate nPrefix .zero := by
  have hfit : i * nPrefix + nPrefix ≤ nPrefix * nPrefix := by
    rw [← Nat.succ_mul]
    exact Nat.mul_le_mul_right nPrefix hi
  rw [fillPrefixAttnMask, if_neg (by omega), maskRow, slice, List.drop_replicate,
    List.take_replicate]
  congr 1
  omega


/-- A flattened embedding, by the bits of its floats. -/
abbrev Embedding := List UInt32

/-- The hash of `compute_kv_cache`, in the arithmetic of a 64-bit `size_t`. -/
def prefixHash (prefixHidden : Embedding) : UInt64 :=
  prefixHidden.foldl (fun h p => h ^^^ ((p + 0x9e3779b9).toUInt64 + (h <<< 6) + (h >>> 2))) 0

/-- The expert's dimensions, and what its prefix layers write for an embedding. -/
structure Expert (KV : Type) where
  paliHiddenSize : Nat
  actionHorizon : Nat
  prefixForward : Embedding → KV

structure SuffixSession where
  nPrefix : Nat
  nSuffix : Nat
  maskedStart : Int
  maskedEnd : Int
  attnMask : List MaskValue
  graphAllocated : Bool
  deriving DecidableEq

/-- The graphs that share a scheduler. -/
inductive SchedGraph where
  | jointGraph | prefixGraph | suffixGraph
  deriving DecidableEq

/-- A runner, with the graph that the shared scheduler has allocated last. -/
structure Runner (KV : Type) where
  nPrefixTokens : Nat
  kvCacheInitialized : Bool
  cachedPrefixHash : UInt64
  cachedMaskedStart : Int
  cachedMaskedEnd : Int
  cachedNPrefix : Nat
  prefixSessionInitialized : Bool
  suffixSessionInitialized : Bool
  prefixSessionNPrefix : Nat
  suffixSession : SuffixSession
  suffixPositions : List Nat
  schedGraph : SchedGraph
  kv : KV

/-- How a prefix forward ends: a failed one leaves whatever the graph had written. -/
inductive Forward (KV : Type) where
  | succeeded
  | failed (kv : KV)

variable {KV : Type}

def Runner.init (nPrefixTokens : Nat) (kv : KV) : Runner KV where
  nPrefixTokens
  kvCacheInitialized := false
  cachedPrefixHash := 0
  cachedMaskedStart := -1
  cachedMaskedEnd := -1
  cachedNPrefix := 0
  prefixSessionInitialized := false
  suffixSessionInitialized := false
  prefixSessionNPrefix := 256
  suffixSession := ⟨256, 50, -1, -1, [], false⟩
  suffixPositions := []
  schedGraph := .jointGraph
  kv

def SuffixSession.initWithGpuCache (nPrefix nSuffix : Nat) (s : SuffixSession) : SuffixSession :=
  { s with
    nPrefix, nSuffix, graphAllocated := false
    attnMask := fillSuffixAttnMask nPrefix nSuffix s.maskedStart s.maskedEnd }

def SuffixSession.rebuildGraph (maskedStart maskedEnd : Int) (s : SuffixSession) :
    SuffixSession :=
  { s with
    maskedStart, maskedEnd, graphAllocated := false
    attnMask := fillSuffixAttnMask s.nPrefix s.nSuffix maskedStart maskedEnd }

/-- `set_prefix_length`; the joint graph is allocated anew. -/
def setPrefixLength (nPrefix : Nat) (s : Runner KV) : Runner KV :=
  if s.nPrefixTokens = nPrefix then s
  else { s with
    nPrefixTokens := nPrefix
    schedGraph := .jointGraph
    prefixSessionInitialized := false
    suffixSessionInitialized := false }

def setMaskRange (maskedStart maskedEnd : Int) (s : Runner KV) : Runner KV :=
  { s with cachedMaskedStart := maskedStart, cachedMaskedEnd := maskedEnd }

def clearKvCache (s : Runner KV) : Runner KV :=
  { s with
    kvCacheInitialized := false
    cachedNPrefix := 0
    cachedPrefixHash := 0
    prefixSessionInitialized := false
    suffixSessionInitialized := false }

/-- The test that skips the prefix forward. -/
def Hit (s : Runner KV) (prefixHidden : Embedding) (maskedStart maskedEnd : Int) : Prop :=
  s.kvCacheInitialized = true ∧ prefixHash prefixHidden = s.cachedPrefixHash ∧
    maskedStart = s.cachedMaskedStart ∧ maskedEnd = s.cachedMaskedEnd

instance : Decidable (Hit s prefixHidden maskedStart maskedEnd) :=
  inferInstanceAs (Decidable (_ ∧ _ ∧ _ ∧ _))

def PrefixChanged (s : Runner KV) (nPrefix : Nat) : Prop :=
  0 < s.cachedNPrefix ∧ s.cachedNPrefix ≠ nPrefix

instance : Decidable (PrefixChanged s nPrefix) := inferInstanceAs (Decidable (_ ∧ _))

/-- What a call writes before its forward, the hash first; the session is made anew if need be, and
its graph is allocated. -/
def enterPrefixSession (prefixHidden : Embedding) (maskedStart maskedEnd : Int) (nPrefix : Nat)
    (s : Runner KV) : Runner KV :=
  { s with
    cachedPrefixHash := prefixHash prefixHidden
    cachedMaskedStart := maskedStart
    cachedMaskedEnd := maskedEnd
    prefixSessionNPrefix :=
      if s.prefixSessionInitialized = false ∨ PrefixChanged s nPrefix then nPrefix
      else s.prefixSessionNPrefix
    prefixSessionInitialized := true
    schedGraph := .prefixGraph }

/-- What a call writes after its forward. -/
def leavePrefixSession (P : Expert KV) (prefixHidden : Embedding) (maskedStart maskedEnd : Int)
    (nPrefix : Nat) (s : Runner KV) : Runner KV :=
  let suffixSession :=
    if s.suffixSessionInitialized = false ∨ PrefixChanged s nPrefix then
      s.suffixSession.initWithGpuCache nPrefix P.actionHorizon
    else s.suffixSession
  { s with
    kv := P.prefixForward prefixHidden
    suffixSession := suffixSession.rebuildGraph maskedStart maskedEnd
    suffixSessionInitialized := true
    cachedNPrefix := nPrefix
    suffixPositions := (List.range P.actionHorizon).map (nPrefix + ·)
    kvCacheInitialized := true }

/-- `compute_kv_cache` where the test fails; a size the session's graph refuses aborts. -/
def recomputeKvCache (P : Expert KV) (prefixHidden : Embedding) (maskedStart maskedEnd : Int)
    (outcome : Forward KV) (s : Runner KV) : Option (Bool × Runner KV) :=
  let nPrefix := prefixHidden.length / P.paliHiddenSize
  let s := enterPrefixSession prefixHidden maskedStart maskedEnd nPrefix s
  if prefixHidden.length ≠ P.paliHiddenSize * s.prefixSessionNPrefix ∨
      nPrefix ≠ s.prefixSessionNPrefix then none
  else
    match outcome with
    | .failed kv => some (false, { s with kv })
    | .succeeded => some (true, leavePrefixSession P prefixHidden maskedStart maskedEnd nPrefix s)

def computeKvCache (P : Expert KV) (prefixHidden : Embedding) (maskedStart maskedEnd : Int)
    (outcome : Forward KV) (s : Runner KV) : Option (Bool × Runner KV) :=
  if Hit s prefixHidden maskedStart maskedEnd then some (true, s)
  else recomputeKvCache P prefixHidden maskedStart maskedEnd outcome s

/-- `run_with_cache`, of which only the graph's allocation stays: the first run of a session
allocates its graph, and every run computes the graph that is allocated. -/
def runWithCache (s : Runner KV) : Runner KV :=
  if s.kvCacheInitialized then
    { s with
      suffixSession := { s.suffixSession with graphAllocated := true }
      schedGraph := if s.suffixSession.graphAllocated then s.schedGraph else .suffixGraph }
  else s

/-- What a suffix step reads: the K/V, the length its views and mask are cut for, its positions. -/
def suffixInputs (s : Runner KV) : KV × Nat × List MaskValue × List Nat :=
  (s.kv, s.suffixSession.nPrefix, s.suffixSession.attnMask, s.suffixPositions)

inductive Op (KV : Type) where
  | setPrefixLength (nPrefix : Nat)
  | setMaskRange (maskedStart maskedEnd : Int)
  | computeKvCache (prefixHidden : Embedding) (maskedStart maskedEnd : Int) (outcome : Forward KV)
  | clearKvCache
  | sampleActionsWithCache (prefixHidden : Embedding) (maskedStart maskedEnd : Int)
      (outcome : Forward KV) (steps : Nat)

/-- The arguments of a `compute_kv_cache` call. -/
structure Request where
  prefixHidden : Embedding
  maskedStart : Int
  maskedEnd : Int

/-- A runner with three records of its past, which the code does not keep. -/
structure Traced (KV : Type) where
  runner : Runner KV
  /-- The last call that ran the prefix forward, and whether that succeeded. -/
  forwarded : Option (Request × Bool)
  /-- The call the suffix steps now rely on: the last one, if it returned true. -/
  served : Option Request
  /-- The graphs that the suffix steps have computed. -/
  computed : List SchedGraph

def Traced.compute (P : Expert KV) (t : Traced KV) (r : Request) (outcome : Forward KV) :
    Option (Traced KV) := do
  let (returned, runner) ←
    computeKvCache P r.prefixHidden r.maskedStart r.maskedEnd outcome t.runner
  let forwarded := if Hit t.runner r.prefixHidden r.maskedStart r.maskedEnd then t.forwarded
    else some (r, returned)
  return ⟨runner, forwarded, if returned then some r else none, t.computed⟩

def Traced.suffixStep (t : Traced KV) : Traced KV :=
  let runner := runWithCache t.runner
  { t with
    runner
    computed := if t.runner.kvCacheInitialized then t.computed ++ [runner.schedGraph]
      else t.computed }

def Traced.step (P : Expert KV) (t : Traced KV) : Op KV → Option (Traced KV)
  | .setPrefixLength nPrefix => some { t with runner := setPrefixLength nPrefix t.runner }
  | .setMaskRange maskedStart maskedEnd =>
    some { t with runner := setMaskRange maskedStart maskedEnd t.runner }
  | .clearKvCache => some { t with runner := clearKvCache t.runner, served := none }
  | .computeKvCache prefixHidden maskedStart maskedEnd outcome =>
    t.compute P ⟨prefixHidden, maskedStart, maskedEnd⟩ outcome
  | .sampleActionsWithCache prefixHidden maskedStart maskedEnd outcome steps => do
    let t ← t.compute P ⟨prefixHidden, maskedStart, maskedEnd⟩ outcome
    if t.served.isSome then return Traced.suffixStep^[steps] t else return t

def Request.nPrefix (P : Expert KV) (r : Request) : Nat :=
  r.prefixHidden.length / P.paliHiddenSize

def Request.attnMask (P : Expert KV) (r : Request) : List MaskValue :=
  fillSuffixAttnMask (r.nPrefix P) P.actionHorizon r.maskedStart r.maskedEnd

/-- What suffix steps after a request should read. -/
def Request.inputs (P : Expert KV) (r : Request) : KV × Nat × List MaskValue × List Nat :=
  (P.prefixForward r.prefixHidden, r.nPrefix P, r.attnMask P,
    (List.range P.actionHorizon).map (r.nPrefix P + ·))

/-- After a call that returned true the suffix steps read what belongs to its arguments, and all of
them have computed the graph that reads it. -/
structure Sound (P : Expert KV) (t : Traced KV) : Prop where
  inputs : ∀ r, t.served = some r → suffixInputs t.runner = r.inputs P
  computed : ∀ g ∈ t.computed, g = .suffixGraph

/-- A call that skips the forward comes after a successful one of the same prefix and mask. -/
def HitIsCurrent (P : Expert KV) (t : Traced KV) (r : Request) : Prop :=
  Hit t.runner r.prefixHidden r.maskedStart r.maskedEnd →
    ∃ q, t.forwarded = some (q, true) ∧
      q.prefixHidden = r.prefixHidden ∧ q.attnMask P = r.attnMask P

/-- The graph of the suffix session, once it was allocated, is the last one of the scheduler. -/
def GraphIsCurrent (s : Runner KV) : Prop :=
  s.suffixSession.graphAllocated = true → s.schedGraph = .suffixGraph

def Clean (P : Expert KV) (t : Traced KV) : Op KV → Prop
  | .computeKvCache prefixHidden maskedStart maskedEnd _ =>
    HitIsCurrent P t ⟨prefixHidden, maskedStart, maskedEnd⟩
  | .sampleActionsWithCache prefixHidden maskedStart maskedEnd _ _ =>
    HitIsCurrent P t ⟨prefixHidden, maskedStart, maskedEnd⟩ ∧
      (Hit t.runner prefixHidden maskedStart maskedEnd → GraphIsCurrent t.runner)
  | .setPrefixLength _ | .setMaskRange _ _ | .clearKvCache => True

section Soundness
variable {P : Expert KV} {s s' : Runner KV} {t u : Traced KV}

/-- The suffix session, where it is used again, is one for the recorded prefix length. -/
def SessionsAgree (P : Expert KV) (s : Runner KV) : Prop :=
  s.suffixSessionInitialized = true →
    s.suffixSession.nPrefix = s.cachedNPrefix ∧ s.suffixSession.nSuffix = P.actionHorizon ∧
      (s.cachedNPrefix = 0 → s.prefixSessionInitialized = true ∧ s.prefixSessionNPrefix = 0)

structure Inv (P : Expert KV) (t : Traced KV) : Prop where
  sound : Sound P t
  forwarded : t.runner.kvCacheInitialized = true → ∀ q, t.forwarded = some (q, true) →
    suffixInputs t.runner = q.inputs P
  sessions : SessionsAgree P t.runner

theorem enterPrefixSession_sessions (e : Embedding) (ms me : Int) (n : Nat)
    (hs : SessionsAgree P s) : SessionsAgree P (enterPrefixSession e ms me n s) := by
  intro hsuffix
  obtain ⟨hlen, hhorizon, hzero⟩ := hs hsuffix
  refine ⟨hlen, hhorizon, fun hn => ⟨rfl, ?_⟩⟩
  obtain ⟨hpre, hsize⟩ := hzero hn
  have hkept : ¬ (s.prefixSessionInitialized = false ∨ PrefixChanged s n) := by
    rintro (hnew | hchanged)
    · rw [hpre] at hnew
      cases hnew
    · exact hchanged.1.ne' hn
  simp only [enterPrefixSession, if_neg hkept, hsize]

theorem leavePrefixSession_spec (ms me : Int) (hs : SessionsAgree P s)
    (hn : s.prefixSessionNPrefix = e.length / P.paliHiddenSize) :
    suffixInputs (leavePrefixSession P e ms me (e.length / P.paliHiddenSize) s) =
        Request.inputs P ⟨e, ms, me⟩ ∧
      (s.prefixSessionInitialized = true →
        SessionsAgree P (leavePrefixSession P e ms me (e.length / P.paliHiddenSize) s)) := by
  have hzero (h : e.length / P.paliHiddenSize = 0) : s.prefixSessionNPrefix = 0 := hn.trans h
  by_cases hnew : s.suffixSessionInitialized = false ∨
      PrefixChanged s (e.length / P.paliHiddenSize)
  · rw [leavePrefixSession, if_pos hnew]
    exact ⟨rfl, fun hpre _ => ⟨rfl, rfl, fun h => ⟨hpre, hzero h⟩⟩⟩
  · -- The suffix session is used again: it is one for this length already.
    rw [leavePrefixSession, if_neg hnew]
    rw [not_or, Bool.not_eq_false] at hnew
    obtain ⟨hlen, hhorizon, hfirst⟩ := hs hnew.1
    have hsame : s.suffixSession.nPrefix = e.length / P.paliHiddenSize := by
      rcases Nat.eq_zero_or_pos s.cachedNPrefix with hc | hc
      · rw [hlen, hc, ← hn, (hfirst hc).2]
      · by_contra hne
        exact hnew.2 ⟨hc, hlen ▸ hne⟩
    refine ⟨?_, fun hpre _ => ⟨hsame, hhorizon, fun h => ⟨hpre, hzero h⟩⟩⟩
    simp only [suffixInputs, SuffixSession.rebuildGraph, hsame, hhorizon, Request.inputs,
      Request.attnMask, Request.nPrefix]

theorem recomputeKvCache_failed
    (h : recomputeKvCache P e ms me (.failed kv) s = some (returned, s'))
    (hs : SessionsAgree P s) : returned = false ∧ SessionsAgree P s' := by
  simp only [recomputeKvCache] at h
  split_ifs at h
  cases h
  exact ⟨rfl, enterPrefixSession_sessions e ms me _ hs⟩

theorem recomputeKvCache_succeeded
    (h : recomputeKvCache P e ms me .succeeded s = some (returned, s'))
    (hs : SessionsAgree P s) :
    returned = true ∧ suffixInputs s' = Request.inputs P ⟨e, ms, me⟩ ∧ SessionsAgree P s' ∧
      GraphIsCurrent s' := by
  simp only [recomputeKvCache] at h
  split_ifs at h with habort
  cases h
  rw [not_or, not_ne_iff, not_ne_iff] at habort
  obtain ⟨hinputs, hsessions⟩ := leavePrefixSession_spec ms me
    (enterPrefixSession_sessions e ms me _ hs) habort.2.symm
  exact ⟨rfl, hinputs, hsessions rfl, fun hallocated => by cases hallocated⟩

theorem inputs_eq {q r : Request} (he : q.prefixHidden = r.prefixHidden)
    (hm : q.attnMask P = r.attnMask P) : q.inputs P = r.inputs P := by
  rw [Request.inputs, Request.inputs, hm, Request.nPrefix, Request.nPrefix, he]

theorem compute_inv (hI : Inv P t) (hclean : HitIsCurrent P t r)
    (h : t.compute P r outcome = some u) :
    Inv P u ∧ ((Hit t.runner r.prefixHidden r.maskedStart r.maskedEnd → GraphIsCurrent t.runner) →
      u.served.isSome → GraphIsCurrent u.runner) := by
  obtain ⟨⟨returned, runner⟩, hcall, h⟩ := Option.bind_eq_some_iff.1 h
  cases h
  rw [computeKvCache] at hcall
  split_ifs at hcall with hhit
  · cases hcall
    obtain ⟨q, hq, he, hm⟩ := hclean hhit
    have hinputs := hI.forwarded hhit.1 q hq
    refine ⟨⟨⟨?_, hI.sound.computed⟩, ?_, hI.sessions⟩, fun hgraph _ => hgraph hhit⟩
    · intro r' hr'
      cases hr'
      rw [hinputs, inputs_eq he hm]
    · intro hkv q' hq'
      rw [if_pos hhit] at hq'
      exact hI.forwarded hkv q' hq'
  · cases outcome with
    | failed kv =>
      obtain ⟨rfl, hsessions⟩ := recomputeKvCache_failed hcall hI.sessions
      refine ⟨⟨⟨?_, hI.sound.computed⟩, ?_, hsessions⟩, fun _ hserved => by cases hserved⟩
      · intro r' hr'
        cases hr'
      · intro _ q hq
        rw [if_neg hhit] at hq
        cases hq
    | succeeded =>
      obtain ⟨rfl, hinputs, hsessions, hgraph⟩ := recomputeKvCache_succeeded hcall hI.sessions
      refine ⟨⟨⟨?_, hI.sound.computed⟩, ?_, hsessions⟩, fun _ _ => hgraph⟩
      · intro r' hr'
        cases hr'
        exact hinputs
      · intro _ q hq
        rw [if_neg hhit] at hq
        cases hq
        exact hinputs

theorem suffixStep_inv (hI : Inv P t) (hgraph : GraphIsCurrent t.runner) :
    Inv P t.suffixStep ∧ GraphIsCurrent t.suffixStep.runner := by
  rw [Traced.suffixStep, runWithCache]
  by_cases hkv : t.runner.kvCacheInitialized = true
  · rw [if_pos hkv]
    have hcurrent : (if t.runner.suffixSession.graphAllocated then t.runner.schedGraph
        else .suffixGraph) = .suffixGraph := by
      split
      case isTrue h => exact hgraph h
      case isFalse => rfl
    refine ⟨⟨⟨hI.sound.inputs, fun g hg => ?_⟩, hI.forwarded, hI.sessions⟩, fun _ => hcurrent⟩
    rcases List.mem_append.1 (if_pos hkv ▸ hg) with hg | hg
    · exact hI.sound.computed g hg
    · exact (List.mem_singleton.1 hg).trans hcurrent
  · rw [if_neg hkv]
    simp only [if_neg hkv]
    exact ⟨hI, hgraph⟩

theorem suffixSteps_inv (hI : Inv P t) (hgraph : GraphIsCurrent t.runner) (n : Nat) :
    Inv P (Traced.suffixStep^[n] t) := by
  induction n generalizing t with
  | zero => exact hI
  | succ n ih =>
    obtain ⟨hI', hgraph'⟩ := suffixStep_inv hI hgraph
    exact ih hI' hgraph'

theorem step_inv (hI : Inv P t) (hclean : Clean P t op) (h : t.step P op = some u) : Inv P u := by
  cases op with
  | setPrefixLength n =>
    cases h
    rw [setPrefixLength]
    split_ifs
    · exact hI
    · exact ⟨⟨hI.sound.inputs, hI.sound.computed⟩, hI.forwarded, fun hsuffix => by cases hsuffix⟩
  | setMaskRange ms me =>
    cases h
    exact ⟨⟨hI.sound.inputs, hI.sound.computed⟩, hI.forwarded, hI.sessions⟩
  | clearKvCache =>
    cases h
    refine ⟨⟨fun r hr => ?_, hI.sound.computed⟩, fun hkv => ?_, fun hsuffix => ?_⟩
    · cases hr
    · cases hkv
    · cases hsuffix
  | computeKvCache e ms me outcome => exact (compute_inv hI hclean h).1
  | sampleActionsWithCache e ms me outcome steps =>
    obtain ⟨v, hv, h⟩ := Option.bind_eq_some_iff.1 h
    obtain ⟨hI', hgraph⟩ := compute_inv hI hclean.1 hv
    split_ifs at h with hserved
    · cases h
      exact suffixSteps_inv hI' (hgraph hclean.2 hserved) steps
    · cases h
      exact hI'

def Traced.init (nPrefixTokens : Nat) (kv : KV) : Traced KV := 
  ⟨.init nPrefixTokens kv, none, none, []⟩

/-- In a run whose hits are all current, and so is the graph where one is followed by suffix steps,
every state is sound. -/
theorem sound_of_cleanRun (P : Expert KV) (nPrefixTokens : Nat) (kv : KV) (ops : List (Op KV))
    (hclean : EachStep (Traced.step P) (Clean P) (.init nPrefixTokens kv) ops)
    (h : run (Traced.step P) (.init nPrefixTokens kv) ops = some t) : Sound P t := by
  have hinit : Inv P (.init nPrefixTokens kv) := by
    refine ⟨⟨fun r hr => ?_, List.forall_mem_nil _⟩, fun hkv => ?_, fun hsuffix => ?_⟩
    · cases hr
    · cases hkv
    · cases hsuffix
  exact (run_invariant step_inv hinit hclean h).sound

end Soundness

section Instances

/-- An expert of one token a word, whose K/V are the embedding itself. -/
def copyingExpert (paliHiddenSize : Nat) : Expert Embedding := ⟨paliHiddenSize, 1, id⟩

def freshRunner : Traced Embedding := .init 256 []

/-- A failure, a new prefix and a cleared cache, with no hit but a current one. -/
def cleanOps : List (Op Embedding) :=
  [.computeKvCache [1] (-1) (-1) .succeeded, .sampleActionsWithCache [1] (-1) (-1) .succeeded 2,
    .computeKvCache [2] (-1) (-1) (.failed []), .clearKvCache,
    .computeKvCache [2] (-1) (-1) .succeeded]

theorem sound_of_cleanRun_cleanOps :
    ∃ t, run (Traced.step (copyingExpert 1)) freshRunner cleanOps = some t ∧
      Sound (copyingExpert 1) t := by
  refine ⟨_, rfl, sound_of_cleanRun (copyingExpert 1) 256 [] cleanOps ?_ rfl⟩
  refine ⟨fun hhit => absurd hhit (by decide), fun t ht => ?_⟩
  cases ht
  refine ⟨⟨fun _ => ⟨_, rfl, rfl, rfl⟩, fun _ hallocated => by cases hallocated⟩, fun t ht => ?_⟩
  cases ht
  refine ⟨fun hhit => absurd hhit (by decide), fun t ht => ?_⟩
  cases ht
  refine ⟨trivial, fun t ht => ?_⟩
  cases ht
  exact ⟨fun hhit => absurd hhit (by decide), fun _ _ => trivial⟩

/-- A failed forward, a changed mask range and a collision are each served as hits, and after a
hit the suffix steps compute the joint graph that a new prefix length has left in the scheduler. -/
theorem unsound_runs :
    (∃ t, run (Traced.step (copyingExpert 1)) freshRunner
        [.computeKvCache [1] (-1) (-1) .succeeded, .computeKvCache [2] (-1) (-1) (.failed [1]),
          .computeKvCache [2] (-1) (-1) .succeeded] = some t ∧ ¬ Sound (copyingExpert 1) t) ∧
      (∃ t, run (Traced.step (copyingExpert 1)) freshRunner
        [.computeKvCache [1] (-1) (-1) .succeeded, .setMaskRange 0 1,
          .computeKvCache [1] 0 1 .succeeded] = some t ∧ ¬ Sound (copyingExpert 1) t) ∧
      (∃ t, run (Traced.step (copyingExpert 2)) freshRunner
        [.computeKvCache [0x61c8864b, 0x61c88647] (-1) (-1) .succeeded,
          .computeKvCache [0x61c88647, 0x61c8874c] (-1) (-1) .succeeded] = some t ∧
        ¬ Sound (copyingExpert 2) t) ∧
      ∃ t, run (Traced.step (copyingExpert 1)) freshRunner
        [.sampleActionsWithCache [1] (-1) (-1) .succeeded 1, .setPrefixLength 1,
          .sampleActionsWithCache [1] (-1) (-1) .succeeded 1] = some t ∧
        ¬ Sound (copyingExpert 1) t := by
  refine ⟨⟨_, rfl, fun h => ?_⟩, ⟨_, rfl, fun h => ?_⟩, ⟨_, rfl, fun h => ?_⟩,
    ⟨_, rfl, fun h => ?_⟩⟩
  · exact absurd (h.inputs ⟨[2], -1, -1⟩ rfl) (by decide)
  · exact absurd (h.inputs ⟨[1], 0, 1⟩ rfl) (by decide)
  · exact absurd (h.inputs ⟨[0x61c88647, 0x61c8874c], -1, -1⟩ rfl) (by decide)
  · exact absurd (h.computed .jointGraph (by decide)) (by decide)

end Instances
end ActQuant.Pi05
