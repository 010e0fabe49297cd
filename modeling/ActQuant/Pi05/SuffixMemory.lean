import ActQuant.Lib.GraphOrder
import ActQuant.Pi05.Context
import ActQuant.Pi05.JointForward

namespace ActQuant.Pi05.SuffixMemory
open ActQuant.Lib

section Memory

/-- The rows with a list of new ones copied over them from an offset on. -/
def copyRows (offset : Nat) (cur : List α) (rows : Nat → α) : Nat → α := fun j =>
  if offset ≤ j then (cur[j - offset]?).getD (rows j) else rows j

/-- A view of the first rows. -/
def viewRows (rows : Nat → α) (n : Nat) : List α := (List.range n).map rows

/-- `Pi05Memory`: the rows of keys and of values of every layer. -/
structure Pi05Memory (K V : Type) where
  nLayers : Nat
  maxSeqLen : Nat
  kCache : Nat → Nat → K
  vCache : Nat → Nat → V

namespace Pi05Memory
variable {K V : Type}

/-- The test of `get_k`, `get_v`, `cpy_k` and `cpy_v`, which give a null pointer where it fails. -/
def covers (m : Pi05Memory K V) (il n : Nat) : Bool := il < m.nLayers && n ≤ m.maxSeqLen

def getK (m : Pi05Memory K V) (il seqLen : Nat) : List K := viewRows (m.kCache il) seqLen

def getV (m : Pi05Memory K V) (il seqLen : Nat) : List V := viewRows (m.vCache il) seqLen

def cpyK (kCur : List K) (offset il : Nat) (m : Pi05Memory K V) : Pi05Memory K V :=
  { m with kCache := Function.update m.kCache il (copyRows offset kCur (m.kCache il)) }

def cpyV (vCur : List V) (offset il : Nat) (m : Pi05Memory K V) : Pi05Memory K V :=
  { m with vCache := Function.update m.vCache il (copyRows offset vCur (m.vCache il)) }

end Pi05Memory

/-- A list stands in the rows from an offset on. -/
def Stored (offset : Nat) (xs : List α) (rows : Nat → α) : Prop :=
  ∀ j x, xs[j]? = some x → rows (offset + j) = x

theorem stored_copyRows (offset : Nat) (cur : List α) (rows : Nat → α) :
    Stored offset cur (copyRows offset cur rows) := by
  intro j x hx
  rw [copyRows, if_pos (Nat.le_add_right _ _), Nat.add_sub_cancel_left, hx, Option.getD_some]

/-- Rows in front of a copy stay. -/
theorem Stored.copyRows {xs cur : List α} {rows : Nat → α} (h : Stored 0 xs rows)
    (hlen : xs.length ≤ offset) : Stored 0 xs (copyRows offset cur rows) := by
  intro j x hx
  have hj : j < offset := (List.getElem?_eq_some_iff.1 hx).1.trans_le hlen
  rw [SuffixMemory.copyRows, if_neg (by omega)]
  exact h j x hx

/-- Whichever layer is copied to, the rows in front of the copy stay. -/
theorem Stored.update_copyRows {xs cur : List α} {rows : Nat → Nat → α}
    (h : Stored 0 xs (rows i)) (hlen : xs.length ≤ offset) :
    Stored 0 xs (Function.update rows il (SuffixMemory.copyRows offset cur (rows il)) i) := by
  by_cases hi : i = il
  · subst hi
    rw [Function.update_self]
    exact h.copyRows hlen
  · rwa [Function.update_of_ne hi]

/-- The view over two lists stored one after the other is their concatenation. -/
theorem viewRows_eq_append {xs ys : List α} {rows : Nat → α} (hx : Stored 0 xs rows)
    (hy : Stored xs.length ys rows) : viewRows rows (xs.length + ys.length) = xs ++ ys := by
  apply List.ext_getElem
  · rw [viewRows, List.length_map, List.length_range, List.length_append]
  · intro i hi hi'
    simp only [viewRows, List.getElem_map, List.getElem_range, List.getElem_append]
    split
    · rename_i hlt
      rw [← hx i _ (List.getElem?_eq_getElem hlt), Nat.zero_add]
    · rename_i hge
      rw [List.length_append] at hi'
      rw [← hy (i - xs.length) _ (List.getElem?_eq_getElem (by omega))]
      congr 1
      omega

end Memory

/-- The nodes of the suffix graph, up to the chains of operations that read no memory. -/
inductive Node where
  | embed
  | cond
  | normed (il : Nat)
  | q (il : Nat)
  | k (il : Nat)
  | v (il : Nat)
  | kDst (il : Nat)
  | vDst (il : Nat)
  | kCpy (il : Nat)
  | vCpy (il : Nat)
  | fullK (il : Nat)
  | fullV (il : Nat)
  | attn (il : Nat)
  | out (il : Nat)
  | velocity
  deriving DecidableEq

section Graph

/-- `suffix_cur` in front of a layer. -/
def suffixCur : Nat → Node
  | 0 => .embed
  | il + 1 => .out il

/-- The operands of a node; the views rest on leaves of the graph. -/
def src (nLayer : Nat) : Node → List Node
  | .embed | .cond | .kDst _ | .vDst _ | .fullK _ | .fullV _ => []
  | .normed il => [suffixCur il, .cond]
  | .q il | .k il | .v il => [.normed il]
  | .kCpy il => [.k il, .kDst il]
  | .vCpy il => [.v il, .vDst il]
  | .attn il => [.q il, .fullK il, .fullV il]
  | .out il => [suffixCur il, .attn il, .cond]
  | .velocity => [suffixCur nLayer, .cond]

def rank (nLayer : Nat) : Node → Nat
  | .embed | .cond | .kDst _ | .vDst _ | .fullK _ | .fullV _ => 0
  | .normed il => 6 * il + 1
  | .q il | .k il | .v il => 6 * il + 2
  | .kCpy il | .vCpy il | .attn il => 6 * il + 3
  | .out il => 6 * il + 4
  | .velocity => 6 * nLayer + 1

/-- `SuffixLayerWithMemoryResult`. -/
structure SuffixLayerWithMemoryResult where
  suffixOut : Node
  kCpy : Node
  vCpy : Node

/-- The nodes of `build_suffix_layer_with_memory` that the caller is given. -/
def buildSuffixLayerWithMemory (il : Nat) : SuffixLayerWithMemoryResult :=
  ⟨.out il, .kCpy il, .vCpy il⟩

/-- `build_suffix_graph`: the two copies of each layer come to the graph before anything that is
reached only later; a null copy or view is the end of the process. -/
def buildSuffixGraph (m : Pi05Memory K V) (nLayer nPrefix nSuffix : Nat) : Option (Cgraph Node) :=
  let expand := buildForwardExpand (src nLayer) (rank nLayer)
  ((List.range nLayer).foldlM (fun gf il =>
      let layerResult := buildSuffixLayerWithMemory il
      if m.covers il (nPrefix + nSuffix) then
        some (expand (expand gf layerResult.kCpy) layerResult.vCpy)
      else none) .empty).map fun gf => expand gf .velocity

/-- The copies that have to be done before a layer's attention reads the memory. -/
def copiesBefore : Node → List Node
  | .attn il => [.kCpy il, .vCpy il]
  | _ => []

/-- A node of a layer comes after all of the layers below it; the attention opens a second half. -/
def phase (nLayer : Nat) : Node → Nat
  | .embed | .cond => 0
  | .normed il | .q il | .k il | .v il | .kDst il | .vDst il | .kCpy il | .vCpy il | .fullK il
  | .fullV il => 2 * il
  | .attn il => 2 * il + 1
  | .out il => 2 * il + 2
  | .velocity => 2 * nLayer

/-- The node is one of the graph's layers. -/
def Within (nLayer : Nat) : Node → Prop
  | .embed | .cond | .velocity => True
  | .normed il | .q il | .k il | .v il | .kDst il | .vDst il | .kCpy il | .vCpy il | .fullK il
  | .fullV il | .attn il | .out il => il < nLayer

theorem rank_src (nLayer : Nat) : ∀ n, ∀ m ∈ src nLayer n, rank nLayer m < rank nLayer n := by
  have hcur (il : Nat) : rank nLayer (suffixCur il) < 6 * il + 1 := by
    cases il <;> simp only [suffixCur, rank] <;> omega
  intro n m hm
  cases n <;> simp only [src, List.mem_cons, List.not_mem_nil, or_false] at hm
  case normed il =>
    rcases hm with rfl | rfl
    · exact hcur il
    · exact Nat.succ_pos _
  case out il =>
    rcases hm with rfl | rfl | rfl
    · exact (hcur il).trans_le (Nat.add_le_add_left (by decide) _)
    all_goals simp only [rank]; omega
  case velocity =>
    rcases hm with rfl | rfl
    · exact hcur nLayer
    · exact Nat.succ_pos _
  case kCpy | vCpy => rcases hm with rfl | rfl <;> simp only [rank] <;> omega
  case attn => rcases hm with rfl | rfl | rfl <;> simp only [rank] <;> omega
  case q | k | v =>
    subst hm
    simp only [rank]
    omega

/-- What a node rests on is no later, and no node of another layer than the graph's. -/
theorem closed_phase (nLayer c : Nat) :
    ClosedUnder (src nLayer) fun n => phase nLayer n ≤ c ∧ Within nLayer n := by
  have hcur (il : Nat) : phase nLayer (suffixCur il) = 2 * il := by
    cases il <;> simp only [suffixCur, phase]; omega
  have hwithin (il : Nat) (h : il ≤ nLayer) : Within nLayer (suffixCur il) := by
    cases il with
    | zero => trivial
    | succ il => exact h
  rintro n ⟨hc, hn⟩ m hm
  cases n <;> simp only [src, List.mem_cons, List.not_mem_nil, or_false] at hm
  case normed il =>
    rcases hm with rfl | rfl
    · exact ⟨hcur il ▸ hc, hwithin il (Nat.le_of_lt hn)⟩
    · exact ⟨Nat.zero_le _, trivial⟩
  case out il =>
    simp only [phase] at hc
    rcases hm with rfl | rfl | rfl
    · exact ⟨by rw [hcur]; omega, hwithin il (Nat.le_of_lt hn)⟩
    · exact ⟨by simp only [phase]; omega, hn⟩
    · exact ⟨Nat.zero_le _, trivial⟩
  case velocity =>
    rcases hm with rfl | rfl
    · exact ⟨hcur nLayer ▸ hc, hwithin nLayer (le_refl _)⟩
    · exact ⟨Nat.zero_le _, trivial⟩
  case kCpy | vCpy => rcases hm with rfl | rfl <;> exact ⟨hc, hn⟩
  case attn =>
    simp only [phase] at hc
    rcases hm with rfl | rfl | rfl <;> exact ⟨by simp only [phase]; omega, hn⟩
  case q | k | v => exact hm ▸ ⟨hc, hn⟩

/-- What the graph has after some of the layers. -/
structure Built (nLayer il : Nat) (g : Cgraph Node) : Prop where
  complete : g.Complete
  ordered : Ordered (fun n => src nLayer n ++ copiesBefore n) [] g.nodes
  within : ∀ n ∈ g.nodes, Within nLayer n
  copied : ∀ i < il, .kCpy i ∈ g.nodes ∧ .vCpy i ∈ g.nodes

theorem Built.expand (h : Built nLayer il g) (hphase : phase nLayer n ≤ 2 * il)
    (hn : Within nLayer n) :
    Built nLayer il (buildForwardExpand (src nLayer) (rank nLayer) g n) ∧
      n ∈ (buildForwardExpand (src nLayer) (rank nLayer) g n).nodes ∧
      ∀ m ∈ g.nodes, m ∈ (buildForwardExpand (src nLayer) (rank nLayer) g n).nodes := by
  obtain ⟨new, hgrown, hmem, hcomplete, hnew⟩ :=
    buildForwardExpand_grown (rank_src nLayer) (closed_phase nLayer (2 * il)) h.complete
      ⟨hphase, hn⟩
  have hkept : ∀ m ∈ g.nodes,
      m ∈ (buildForwardExpand (src nLayer) (rank nLayer) g n).nodes := by
    intro m hm
    rw [hgrown.nodes]
    exact List.mem_append_left _ hm
  refine ⟨⟨hcomplete, ?_, ?_, ?_⟩, hmem, hkept⟩
  · rw [hgrown.nodes]
    refine ordered_append.2 ⟨h.ordered, hgrown.ordered.and (ordered_of_done ?_)⟩
    intro m hm c hc
    -- An attention among the new nodes is of a layer below, whose copies are there already.
    cases m <;> simp only [copiesBefore, List.mem_cons, List.not_mem_nil, or_false] at hc
    case attn i =>
      have hi : i < il := by
        have hle := (hnew _ hm).1
        simp only [phase] at hle
        omega
      rcases hc with rfl | rfl
      · exact (h.copied i hi).1
      · exact (h.copied i hi).2
  · intro m hm
    rw [hgrown.nodes, List.mem_append] at hm
    exact hm.elim (h.within m) fun hm => (hnew m hm).2
  · exact fun i hi => (h.copied i hi).imp (hkept _) (hkept _)

theorem built_empty (nLayer : Nat) : Built nLayer 0 .empty :=
  ⟨Cgraph.complete_empty, trivial, fun _ h => absurd h List.not_mem_nil,
    fun _ h => absurd h (Nat.not_lt_zero _)⟩

theorem Built.layer (h : Built nLayer il g) (hil : il < nLayer) :
    Built nLayer (il + 1) (buildForwardExpand (src nLayer) (rank nLayer)
      (buildForwardExpand (src nLayer) (rank nLayer) g (.kCpy il)) (.vCpy il)) := by
  obtain ⟨hk, hkmem, _⟩ := h.expand (n := .kCpy il) (le_refl _) hil
  obtain ⟨hv, hvmem, hkept⟩ := hk.expand (n := .vCpy il) (le_refl _) hil
  refine ⟨hv.complete, hv.ordered, hv.within, ?_⟩
  intro i hi
  rcases Nat.lt_succ_iff_lt_or_eq.1 hi with hi | rfl
  · exact hv.copied i hi
  · exact ⟨hkept _ hkmem, hvmem⟩

/-- The suffix graph of a memory that has room is built, every node after its operands and every
attention after its layer's copies. -/
theorem buildSuffixGraph_built {m : Pi05Memory K V} (hlayers : nLayer ≤ m.nLayers)
    (hfit : nPrefix + nSuffix ≤ m.maxSeqLen) :
    ∃ g, buildSuffixGraph m nLayer nPrefix nSuffix = some g ∧ Built nLayer nLayer g ∧
      .velocity ∈ g.nodes ∧ ∀ il < nLayer, .out il ∈ g.nodes := by
  have hloop : ∀ n ≤ nLayer, ∃ g, (List.range n).foldlM (fun gf il =>
      let layerResult := buildSuffixLayerWithMemory il
      if m.covers il (nPrefix + nSuffix) then
        some (buildForwardExpand (src nLayer) (rank nLayer)
          (buildForwardExpand (src nLayer) (rank nLayer) gf layerResult.kCpy) layerResult.vCpy)
      else none) .empty = some g ∧ Built nLayer n g := by
    intro n hn
    induction n with
    | zero => exact ⟨.empty, rfl, built_empty nLayer⟩
    | succ n ih =>
      obtain ⟨g, hg, hbuilt⟩ := ih (Nat.le_of_lt hn)
      have hcovers : m.covers n (nPrefix + nSuffix) = true := by
        rw [Pi05Memory.covers, decide_eq_true (Nat.lt_of_lt_of_le hn hlayers), decide_eq_true hfit]
        rfl
      refine ⟨_, ?_, hbuilt.layer hn⟩
      rw [List.range_succ, List.foldlM_append, hg]
      simp only [List.foldlM_cons, List.foldlM_nil, hcovers, if_true]
      rfl
  obtain ⟨g, hg, hbuilt⟩ := hloop nLayer (le_refl _)
  obtain ⟨hlast, hmem, hkept⟩ := hbuilt.expand (n := .velocity) (le_refl _) trivial
  refine ⟨_, by rw [buildSuffixGraph, hg]; rfl, hlast, hmem, ?_⟩
  have hsrc {n m : Node} (hn : n ∈ _) (hm : m ∈ src nLayer n) : m ∈ _ :=
    hlast.ordered.mem_of_needs hn (List.mem_append_left _ hm)
  intro il hil
  by_cases hnext : il + 1 < nLayer
  · have hk := hsrc (hlast.copied _ hnext).1 (.head _)
    exact hsrc (hsrc hk (.head _)) (.head _)
  · obtain rfl : nLayer = il + 1 := by omega
    exact hsrc hmem (.head _)

end Graph

variable {P S Q K V A F G C X T : Type}

/-- The inputs of a step: `n` actions at `n` positions, in tensors of fixed dimensions. -/
structure SuffixStep (X T : Type) (n : Nat) where
  noisyActions : List X
  timestepEmb : T
  positions : List Nat
  attnMask : List MaskValue
  length_actions : noisyActions.length = n
  length_positions : positions.length = n

/-- What a node holds after its computation. -/
abbrev Val (S Q K V A C X : Type) : Node → Type
  | .embed | .normed _ | .out _ => List S
  | .cond => C
  | .q _ => List Q
  | .k _ => List K
  | .v _ => List V
  | .kDst _ | .vDst _ | .kCpy _ | .vCpy _ | .fullK _ | .fullV _ => Unit
  | .attn _ => List A
  | .velocity => List X

/-- The compute buffers, with what earlier steps left in them, and the memory. -/
structure ExecState (S Q K V A C X : Type) where
  vals : (n : Node) → Option (Val S Q K V A C X n)
  memory : Pi05Memory K V

namespace ExecState

def set (s : ExecState S Q K V A C X) (n : Node) (x : Val S Q K V A C X n) :
    ExecState S Q K V A C X :=
  { s with vals := Function.update s.vals n (some x) }

/-- The value of `suffix_cur` in front of a layer. -/
def suffixCur (s : ExecState S Q K V A C X) : Nat → Option (List S)
  | 0 => s.vals .embed
  | il + 1 => s.vals (.out il)

theorem vals_set_self (s : ExecState S Q K V A C X) (n : Node) (x : Val S Q K V A C X n) :
    (s.set n x).vals n = some x := Function.update_self ..

theorem vals_set_of_ne (s : ExecState S Q K V A C X) (x : Val S Q K V A C X n) (h : m ≠ n) :
    (s.set n x).vals m = s.vals m := Function.update_of_ne h ..

end ExecState

section Compute
variable [Add S] [Mul S] [Mul G]

section Rows
variable (E : ActionExpert P S Q K V A F G C X T) {n : Nat} (step : SuffixStep X T n)
  (layer : GemmaJointLayer P S Q K V A F G C)

def condOf : C := E.timestepMlp step.timestepEmb

def normedOf (hidden : List S) : List S :=
  hidden.map (buildAdaRmsNorm E.rms (layer.expertAttnAdaln (condOf E step)))

def qOf (normed : List S) : List Q :=
  List.zipWith E.kern.ropeQ step.positions (normed.map layer.expertQ)

def kOf (normed : List S) : List K :=
  List.zipWith E.kern.ropeK step.positions (normed.map layer.expertK)

def vOf (normed : List S) : List V := normed.map layer.expertV

/-- The attention over the concatenated keys and values. -/
def attnOf (c : List K × List V) (hidden : List S) : List A :=
  let normed := normedOf E step layer hidden
  buildGqaAttention E.kern (qOf E step layer normed) (c.1 ++ kOf E step layer normed)
    (c.2 ++ vOf layer normed) step.attnMask

/-- The end of a layer: the gated residual and the MLP. -/
def outOf (hidden : List S) (attn : List A) : List S :=
  let m := layer.expertAttnAdaln (condOf E step)
  (List.zipWith (fun x a => x + a * m.gate) hidden (attn.map layer.expertO)).map
    (expertMlp E.kern E.rms layer (condOf E step))

def velocityOf (hidden : List S) : List X :=
  hidden.map fun x => E.actionOut (buildAdaRmsNorm E.rms (E.outputAdaln (condOf E step)) x)

end Rows

/-- The computation of a node: the copies write to the memory, and the attention reads through the
views what stands there when its turn has come. -/
def computeNode (E : ActionExpert P S Q K V A F G C X T) (nPrefix : Nat)
    (step : SuffixStep X T nSuffix) (s : ExecState S Q K V A C X) :
    Node → Option (ExecState S Q K V A C X)
  | .embed => some (s.set .embed (step.noisyActions.map E.actionIn))
  | .cond => some (s.set .cond (condOf E step))
  | .normed il =>
    (s.suffixCur il).bind fun hidden => (s.vals .cond).bind fun c => E.layers[il]?.map fun layer =>
      s.set (.normed il) (hidden.map (buildAdaRmsNorm E.rms (layer.expertAttnAdaln c)))
  | .q il => (s.vals (.normed il)).bind fun normed => E.layers[il]?.map fun layer =>
    s.set (.q il) (qOf E step layer normed)
  | .k il => (s.vals (.normed il)).bind fun normed => E.layers[il]?.map fun layer =>
    s.set (.k il) (kOf E step layer normed)
  | .v il => (s.vals (.normed il)).bind fun normed => E.layers[il]?.map fun layer =>
    s.set (.v il) (vOf layer normed)
  | .kDst il => some (s.set (.kDst il) ())
  | .vDst il => some (s.set (.vDst il) ())
  | .kCpy il => (s.vals (.k il)).map fun k => { s with memory := s.memory.cpyK k nPrefix il }
  | .vCpy il => (s.vals (.v il)).map fun v => { s with memory := s.memory.cpyV v nPrefix il }
  | .fullK il => some (s.set (.fullK il) ())
  | .fullV il => some (s.set (.fullV il) ())
  | .attn il => (s.vals (.q il)).map fun q =>
    s.set (.attn il) (buildGqaAttention E.kern q (s.memory.getK il (nPrefix + nSuffix))
      (s.memory.getV il (nPrefix + nSuffix)) step.attnMask)
  | .out il =>
    (s.suffixCur il).bind fun hidden => (s.vals (.attn il)).bind fun attn =>
      (s.vals .cond).bind fun c => E.layers[il]?.map fun layer =>
        let m := layer.expertAttnAdaln c
        s.set (.out il) ((List.zipWith (fun x a => x + a * m.gate) hidden
          (attn.map layer.expertO)).map (expertMlp E.kern E.rms layer c))
  | .velocity =>
    (s.suffixCur E.layers.length).bind fun hidden => (s.vals .cond).map fun c =>
      s.set .velocity (hidden.map fun x =>
        E.actionOut (buildAdaRmsNorm E.rms (E.outputAdaln c) x))

/-- A step: the nodes of the graph in their order. -/
def runStep (E : ActionExpert P S Q K V A F G C X T) (g : Cgraph Node) (nPrefix : Nat)
    (s : ExecState S Q K V A C X) (step : SuffixStep X T nSuffix) :
    Option (ExecState S Q K V A C X) :=
  g.nodes.foldlM (computeNode E nPrefix step) s

/-- The states after each of a sequence of steps. -/
def runSteps (E : ActionExpert P S Q K V A F G C X T) (g : Cgraph Node) (nPrefix : Nat) :
    ExecState S Q K V A C X → List (SuffixStep X T nSuffix) →
      Option (List (ExecState S Q K V A C X))
  | _, [] => some []
  | s, step :: steps => (runStep E g nPrefix s step).bind fun s' =>
    (runSteps E g nPrefix s' steps).map (s' :: ·)

/-- The copies of the prefix pass, a layer's keys and values from row 0 on; a null copy is the end
of the process. -/
def storePrefix : Nat → List (List K × List V) → Pi05Memory K V → Option (Pi05Memory K V)
  | _, [], m => some m
  | il, c :: caches, m =>
    if m.covers il c.1.length && m.covers il c.2.length then
      storePrefix (il + 1) caches ((m.cpyK c.1 0 il).cpyV c.2 0 il)
    else none

/-- The rows of every layer start with the prefix's keys and values. -/
def PrefixKept (caches : List (List K × List V)) (m : Pi05Memory K V) : Prop :=
  ∀ il c, caches[il]? = some c → Stored 0 c.1 (m.kCache il) ∧ Stored 0 c.2 (m.vCache il)

/-- What the concatenating layers give in front of a layer. -/
def concatHidden (E : ActionExpert P S Q K V A F G C X T) (caches : List (List K × List V))
    (step : SuffixStep X T nSuffix) (il : Nat) : List S :=
  suffixForward E.kern E.rms step.positions step.attnMask (condOf E step) (E.layers.take il)
    (caches.take il) (step.noisyActions.map E.actionIn)

section Concat
variable {E : ActionExpert P S Q K V A F G C X T} {caches : List (List K × List V)}
  {step : SuffixStep X T nSuffix}

theorem concatHidden_zero :
    concatHidden E caches step 0 = step.noisyActions.map E.actionIn := rfl

/-- A layer over the concatenated keys and values, taken apart. -/
theorem concatHidden_succ (hlayer : E.layers[il]? = some layer) (hcache : caches[il]? = some c) :
    concatHidden E caches step (il + 1) =
      outOf E step layer (concatHidden E caches step il)
        (attnOf E step layer c (concatHidden E caches step il)) := by
  have hzip : (E.layers.zip caches)[il]? = some (layer, c) :=
    List.getElem?_zip_eq_some.2 ⟨hlayer, hcache⟩
  simp only [concatHidden, suffixForward, List.zip, ← List.take_zipWith]
  simp only [List.zip] at hzip
  rw [List.take_add_one, hzip, Option.toList_some, List.foldl_append, List.foldl_cons,
    List.foldl_nil]
  rfl

variable (step) in
theorem length_concatHidden (hlen : caches.length = E.layers.length)
    (hil : il ≤ E.layers.length) : (concatHidden E caches step il).length = nSuffix := by
  induction il with
  | zero => rw [concatHidden_zero, List.length_map, step.length_actions]
  | succ il ih =>
    have hlayer := List.getElem?_eq_getElem (l := E.layers) hil
    have hcache := List.getElem?_eq_getElem (l := caches) (hlen ▸ hil)
    rw [concatHidden_succ hlayer hcache]
    simp only [outOf, attnOf, buildGqaAttention, qOf, normedOf, List.length_map,
      List.length_zipWith, List.length_mapIdx, step.length_positions, ih (Nat.le_of_succ_le hil),
      Nat.min_self]

end Concat

section Invariant
variable {E : ActionExpert P S Q K V A F G C X T} {caches : List (List K × List V)}
  {step : SuffixStep X T nSuffix} {s : ExecState S Q K V A C X} {nPrefix : Nat}

/-- The prefix's keys and values, a pair for each of the expert's layers. -/
structure PrefixCaches (E : ActionExpert P S Q K V A F G C X T) (nPrefix : Nat)
    (caches : List (List K × List V)) : Prop where
  length : caches.length = E.layers.length
  rows : ∀ c ∈ caches, c.1.length = nPrefix ∧ c.2.length = nPrefix

/-- What is known of a node that was computed: it holds what it does in the concatenating pass, or
its rows stand in the memory behind those of the prefix. -/
def Holds (E : ActionExpert P S Q K V A F G C X T) (caches : List (List K × List V))
    (nPrefix : Nat) (step : SuffixStep X T nSuffix) (s : ExecState S Q K V A C X) : Node → Prop
  | .embed => s.vals .embed = some (concatHidden E caches step 0)
  | .cond => s.vals .cond = some (condOf E step)
  | .normed il => ∀ layer, E.layers[il]? = some layer →
    s.vals (.normed il) = some (normedOf E step layer (concatHidden E caches step il))
  | .q il => ∀ layer, E.layers[il]? = some layer →
    s.vals (.q il) =
      some (qOf E step layer (normedOf E step layer (concatHidden E caches step il)))
  | .k il => ∀ layer, E.layers[il]? = some layer →
    s.vals (.k il) =
      some (kOf E step layer (normedOf E step layer (concatHidden E caches step il)))
  | .v il => ∀ layer, E.layers[il]? = some layer →
    s.vals (.v il) = some (vOf layer (normedOf E step layer (concatHidden E caches step il)))
  | .kCpy il => ∀ layer, E.layers[il]? = some layer →
    Stored nPrefix (kOf E step layer (normedOf E step layer (concatHidden E caches step il)))
      (s.memory.kCache il)
  | .vCpy il => ∀ layer, E.layers[il]? = some layer →
    Stored nPrefix (vOf layer (normedOf E step layer (concatHidden E caches step il)))
      (s.memory.vCache il)
  | .attn il => ∀ layer c, E.layers[il]? = some layer → caches[il]? = some c →
    s.vals (.attn il) = some (attnOf E step layer c (concatHidden E caches step il))
  | .out il => s.vals (.out il) = some (concatHidden E caches step (il + 1))
  | .velocity =>
    s.vals .velocity = some (velocityOf E step (concatHidden E caches step E.layers.length))
  | .kDst _ | .vDst _ | .fullK _ | .fullV _ => True

/-- During a step the prefix rows stay, and the nodes computed so far hold what they should. -/
structure Inv (E : ActionExpert P S Q K V A F G C X T) (caches : List (List K × List V))
    (nPrefix : Nat) (step : SuffixStep X T nSuffix) (done : List Node)
    (s : ExecState S Q K V A C X) : Prop where
  kept : PrefixKept caches s.memory
  holds : ∀ n ∈ done, Holds E caches nPrefix step s n

/-- A node keeps what it holds as long as neither its value nor its rows are written. -/
theorem Holds.frame {s' : ExecState S Q K V A C X} (h : Holds E caches nPrefix step s m)
    (hvals : s'.vals m = s.vals m)
    (hk : ∀ il, m = .kCpy il → s'.memory.kCache il = s.memory.kCache il)
    (hv : ∀ il, m = .vCpy il → s'.memory.vCache il = s.memory.vCache il) :
    Holds E caches nPrefix step s' m := by
  cases m with
  | kCpy il =>
    simp only [Holds, hk il rfl]
    exact h
  | vCpy il =>
    simp only [Holds, hv il rfl]
    exact h
  | kDst | vDst | fullK | fullV => trivial
  | _ =>
    simp only [Holds, hvals]
    exact h

/-- A node that is computed, where every other node keeps what it holds. -/
theorem Inv.add {s' : ExecState S Q K V A C X} (hI : Inv E caches nPrefix step done s)
    (hkept : PrefixKept caches s'.memory) (hn : Holds E caches nPrefix step s' n)
    (hframe : ∀ m, m ≠ n → Holds E caches nPrefix step s m → Holds E caches nPrefix step s' m) :
    Inv E caches nPrefix step (done ++ [n]) s' where
  kept := hkept
  holds m hm := by
    by_cases heq : m = n
    · exact heq ▸ hn
    · rcases List.mem_append.1 hm with hm | hm
      · exact hframe m heq (hI.holds m hm)
      · exact absurd (List.mem_singleton.1 hm) heq

/-- A node whose value alone is written. -/
theorem Inv.set (hI : Inv E caches nPrefix step done s) (x : Val S Q K V A C X n)
    (hn : Holds E caches nPrefix step (s.set n x) n) :
    Inv E caches nPrefix step (done ++ [n]) (s.set n x) := by
  refine hI.add ?_ hn ?_
  · exact hI.kept
  intro m hne hm
  exact hm.frame (s.vals_set_of_ne x hne) (fun _ _ => rfl) fun _ _ => rfl

theorem Inv.cpyK (hcaches : PrefixCaches E nPrefix caches)
    (hI : Inv E caches nPrefix step done s) (k : List K)
    (hn : ∀ layer, E.layers[il]? = some layer →
      k = kOf E step layer (normedOf E step layer (concatHidden E caches step il))) :
    Inv E caches nPrefix step (done ++ [.kCpy il])
      { s with memory := s.memory.cpyK k nPrefix il } := by
  apply hI.add
  · intro i c hc
    obtain ⟨hk, hv⟩ := hI.kept i c hc
    exact ⟨hk.update_copyRows (hcaches.rows c (List.mem_of_getElem? hc)).1.le, hv⟩
  · intro layer hlayer
    simp only [Pi05Memory.cpyK, Function.update_self]
    exact hn layer hlayer ▸ stored_copyRows nPrefix k _
  · intro m hne hm
    refine hm.frame rfl (fun i hi => ?_) fun _ _ => rfl
    have hother : i ≠ il := fun h => hne (h ▸ hi)
    simp only [Pi05Memory.cpyK, Function.update_of_ne hother]

theorem Inv.cpyV (hcaches : PrefixCaches E nPrefix caches)
    (hI : Inv E caches nPrefix step done s) (v : List V)
    (hn : ∀ layer, E.layers[il]? = some layer →
      v = vOf layer (normedOf E step layer (concatHidden E caches step il))) :
    Inv E caches nPrefix step (done ++ [.vCpy il])
      { s with memory := s.memory.cpyV v nPrefix il } := by
  apply hI.add
  · intro i c hc
    obtain ⟨hk, hv⟩ := hI.kept i c hc
    exact ⟨hk, hv.update_copyRows (hcaches.rows c (List.mem_of_getElem? hc)).2.le⟩
  · intro layer hlayer
    simp only [Pi05Memory.cpyV, Function.update_self]
    exact hn layer hlayer ▸ stored_copyRows nPrefix v _
  · intro m hne hm
    refine hm.frame rfl (fun _ _ => rfl) fun i hi => ?_
    have hother : i ≠ il := fun h => hne (h ▸ hi)
    simp only [Pi05Memory.cpyV, Function.update_of_ne hother]

theorem Inv.suffixCur (hI : Inv E caches nPrefix step done s)
    (hdone : SuffixMemory.suffixCur il ∈ done) :
    s.suffixCur il = some (concatHidden E caches step il) := by
  cases il with
  | zero => exact hI.holds .embed hdone
  | succ il => exact hI.holds (.out il) hdone

/-- The views of a layer whose copies are done are the concatenations. -/
theorem Inv.views (hcaches : PrefixCaches E nPrefix caches)
    (hI : Inv E caches nPrefix step done s) (hlayer : E.layers[il]? = some layer)
    (hcache : caches[il]? = some c) (hk : .kCpy il ∈ done) (hv : .vCpy il ∈ done) :
    let normed := normedOf E step layer (concatHidden E caches step il)
    s.memory.getK il (nPrefix + nSuffix) = c.1 ++ kOf E step layer normed ∧
      s.memory.getV il (nPrefix + nSuffix) = c.2 ++ vOf layer normed := by
  have hil : il < E.layers.length := (List.getElem?_eq_some_iff.1 hlayer).1
  have hlen := length_concatHidden step hcaches.length hil.le
  have hklen : (kOf E step layer (normedOf E step layer
      (concatHidden E caches step il))).length = nSuffix := by
    simp only [kOf, normedOf, List.length_zipWith, List.length_map, step.length_positions, hlen,
      Nat.min_self]
  have hvlen : (vOf layer (normedOf E step layer
      (concatHidden E caches step il))).length = nSuffix := by
    simp only [vOf, normedOf, List.length_map, hlen]
  obtain ⟨hk₀, hv₀⟩ := hI.kept il c hcache
  obtain ⟨hkn, hvn⟩ := hcaches.rows c (List.mem_of_getElem? hcache)
  have hks := hI.holds _ hk layer hlayer
  have hvs := hI.holds _ hv layer hlayer
  constructor
  · rw [← hkn] at hks ⊢
    have happend := viewRows_eq_append hk₀ hks
    rwa [hklen] at happend
  · rw [← hvn] at hvs ⊢
    have happend := viewRows_eq_append hv₀ hvs
    rwa [hvlen] at happend

theorem forall_eq_some {o : Option α} {p : α → Prop} (h : o = some a) (ha : p a) :
    ∀ b, o = some b → p b := by
  rintro b hb
  obtain rfl := Option.some.inj (h.symm.trans hb)
  exact ha

/-- Each node of the graph is computed, and holds then what it should. -/
theorem Inv.compute (hcaches : PrefixCaches E nPrefix caches)
    (hI : Inv E caches nPrefix step done s) (hn : Within E.layers.length n)
    (hneeds : ∀ m ∈ src E.layers.length n ++ copiesBefore n, m ∈ done) :
    ∃ s', computeNode E nPrefix step s n = some s' ∧
      Inv E caches nPrefix step (done ++ [n]) s' := by
  have hdone {m : Node} (hm : m ∈ src E.layers.length n ++ copiesBefore n) :
      Holds E caches nPrefix step s m := hI.holds m (hneeds m hm)
  cases n with
  | embed | cond => exact ⟨_, rfl, hI.set _ (s.vals_set_self ..)⟩
  | kDst il | vDst il | fullK il | fullV il => exact ⟨_, rfl, hI.set _ trivial⟩
  | normed il =>
    have hlayer := List.getElem?_eq_getElem (l := E.layers) hn
    have hcur := hI.suffixCur (hneeds (SuffixMemory.suffixCur il) (.head _))
    have hcond : s.vals .cond = some (condOf E step) := hdone (.tail _ (.head _))
    refine ⟨_, ?_, hI.set (normedOf E step E.layers[il] (concatHidden E caches step il))
      (forall_eq_some hlayer (s.vals_set_self ..))⟩
    simp only [computeNode, hcur, hcond, hlayer, Option.bind_some, Option.map_some]
    rfl
  | q il | k il | v il =>
    have hlayer := List.getElem?_eq_getElem (l := E.layers) hn
    have hnormed := hdone (m := .normed il) (.head _) _ hlayer
    refine ⟨_, ?_, hI.set _ (forall_eq_some hlayer (s.vals_set_self ..))⟩
    simp only [computeNode, hnormed, hlayer, Option.bind_some, Option.map_some]
  | kCpy il =>
    have hlayer := List.getElem?_eq_getElem (l := E.layers) hn
    have hk := hdone (m := .k il) (.head _) _ hlayer
    refine ⟨_, ?_, hI.cpyK hcaches _ (forall_eq_some hlayer rfl)⟩
    simp only [computeNode, hk, Option.map_some]
  | vCpy il =>
    have hlayer := List.getElem?_eq_getElem (l := E.layers) hn
    have hv := hdone (m := .v il) (.head _) _ hlayer
    refine ⟨_, ?_, hI.cpyV hcaches _ (forall_eq_some hlayer rfl)⟩
    simp only [computeNode, hv, Option.map_some]
  | attn il =>
    have hlayer := List.getElem?_eq_getElem (l := E.layers) hn
    have hcaches_il : il < caches.length := hcaches.length ▸ hn
    have hcache := List.getElem?_eq_getElem hcaches_il
    have hq := hdone (m := .q il) (.head _) _ hlayer
    have hkdone : .kCpy il ∈ done := hneeds _ (.tail _ (.tail _ (.tail _ (.head _))))
    have hvdone : .vCpy il ∈ done := hneeds _ (.tail _ (.tail _ (.tail _ (.tail _ (.head _)))))
    obtain ⟨hk, hv⟩ := hI.views hcaches hlayer hcache hkdone hvdone
    refine ⟨_, ?_,
      hI.set (attnOf E step E.layers[il] caches[il] (concatHidden E caches step il)) ?_⟩
    · simp only [computeNode, hq, hk, hv, Option.map_some]
      rfl
    · intro layer c hlayer' hcache'
      obtain rfl := Option.some.inj (hlayer.symm.trans hlayer')
      obtain rfl := Option.some.inj (hcache.symm.trans hcache')
      exact s.vals_set_self (.attn il) _
  | out il =>
    have hlayer := List.getElem?_eq_getElem (l := E.layers) hn
    have hcache := List.getElem?_eq_getElem (l := caches) (hcaches.length ▸ hn)
    have hcur := hI.suffixCur (hneeds (SuffixMemory.suffixCur il) (.head _))
    have hattn := hdone (m := .attn il) (.tail _ (.head _)) _ _ hlayer hcache
    have hcond : s.vals .cond = some (condOf E step) := hdone (.tail _ (.tail _ (.head _)))
    refine ⟨_, ?_, hI.set (n := .out il) (concatHidden E caches step (il + 1))
      (s.vals_set_self ..)⟩
    rw [concatHidden_succ hlayer hcache]
    simp only [computeNode, hcur, hattn, hcond, hlayer, Option.bind_some, Option.map_some]
    rfl
  | velocity =>
    have hcur := hI.suffixCur (hneeds (SuffixMemory.suffixCur E.layers.length) (.head _))
    have hcond : s.vals .cond = some (condOf E step) := hdone (.tail _ (.head _))
    refine ⟨_, ?_, hI.set (n := .velocity)
      (velocityOf E step (concatHidden E caches step E.layers.length)) (s.vals_set_self ..)⟩
    simp only [computeNode, hcur, hcond, Option.bind_some, Option.map_some]
    rfl

variable (step) in
/-- A step over a memory with the prefix in place computes the whole graph. -/
theorem runStep_inv (hcaches : PrefixCaches E nPrefix caches)
    (hg : Built E.layers.length E.layers.length g) (hkept : PrefixKept caches s.memory) :
    ∃ s', runStep E g nPrefix s step = some s' ∧ Inv E caches nPrefix step g.nodes s' := by
  have hstart : Inv E caches nPrefix step [] s := ⟨hkept, fun _ h => absurd h List.not_mem_nil⟩
  apply foldlM_of_ordered _ hg.ordered hstart
  intro done n s hn hI hneeds
  exact hI.compute hcaches (hg.within n hn) hneeds

end Invariant

section Steps
variable {E : ActionExpert P S Q K V A F G C X T} {caches : List (List K × List V)}
  {nPrefix nSuffix : Nat}

/-- What the concatenating pass gives, layer by layer and at its end; the prefix is still there. -/
structure AsConcat (E : ActionExpert P S Q K V A F G C X T) (caches : List (List K × List V))
    (step : SuffixStep X T nSuffix) (s : ExecState S Q K V A C X) : Prop where
  out : ∀ il < E.layers.length, s.vals (.out il) = some (concatHidden E caches step (il + 1))
  velocity : s.vals .velocity = some (velocityOf E step
    (suffixForward E.kern E.rms step.positions step.attnMask (condOf E step) E.layers caches
      (step.noisyActions.map E.actionIn)))
  kept : PrefixKept caches s.memory

theorem Inv.asConcat {step : SuffixStep X T nSuffix} (hcaches : PrefixCaches E nPrefix caches)
    (hI : Inv E caches nPrefix step done s) (hout : ∀ il < E.layers.length, .out il ∈ done)
    (hvelocity : .velocity ∈ done) : AsConcat E caches step s where
  out il hil := hI.holds _ (hout il hil)
  velocity := by
    have hlast := hI.holds _ hvelocity
    simp only [Holds, concatHidden, List.take_length] at hlast
    rwa [← hcaches.length, List.take_length] at hlast
  kept := hI.kept

/-- What one step leaves is where the next one starts. -/
theorem runSteps_asConcat (hcaches : PrefixCaches E nPrefix caches)
    (hg : Built E.layers.length E.layers.length g) (hvelocity : .velocity ∈ g.nodes)
    (hout : ∀ il < E.layers.length, .out il ∈ g.nodes)
    (steps : List (SuffixStep X T nSuffix)) {s : ExecState S Q K V A C X}
    (hkept : PrefixKept caches s.memory) :
    ∃ states, runSteps E g nPrefix s steps = some states ∧
      List.Forall₂ (AsConcat E caches) steps states := by
  induction steps generalizing s with
  | nil => exact ⟨[], rfl, .nil⟩
  | cons step steps ih =>
    obtain ⟨s', hs', hI⟩ := runStep_inv step hcaches hg hkept
    obtain ⟨states, hstates, hall⟩ := ih hI.kept
    refine ⟨s' :: states, ?_, .cons (hI.asConcat hcaches hout hvelocity) hall⟩
    rw [runSteps, hs', Option.bind_some, hstates]
    rfl

end Steps

end Compute

section Prefix
variable {K V : Type}

/-- What the copies of the prefix pass make of a memory, from a layer on. -/
structure PrefixStored (il : Nat) (caches : List (List K × List V)) (m m' : Pi05Memory K V) :
    Prop where
  nLayers : m'.nLayers = m.nLayers
  maxSeqLen : m'.maxSeqLen = m.maxSeqLen
  below : ∀ i < il, m'.kCache i = m.kCache i ∧ m'.vCache i = m.vCache i
  rows : ∀ i c, caches[i]? = some c →
    m'.kCache (il + i) = copyRows 0 c.1 (m.kCache (il + i)) ∧
      m'.vCache (il + i) = copyRows 0 c.2 (m.vCache (il + i))

theorem storePrefix_stored {caches : List (List K × List V)} {m : Pi05Memory K V}
    (hrows : ∀ c ∈ caches, c.1.length ≤ m.maxSeqLen ∧ c.2.length ≤ m.maxSeqLen)
    (hlayers : il + caches.length ≤ m.nLayers) :
    ∃ m', storePrefix il caches m = some m' ∧ PrefixStored il caches m m' := by
  induction caches generalizing il m with
  | nil => exact ⟨m, rfl, rfl, rfl, fun _ _ => ⟨rfl, rfl⟩, fun _ _ h => by cases h⟩
  | cons c caches ih =>
    obtain ⟨hk, hv⟩ := hrows c (.head _)
    rw [List.length_cons, Nat.add_comm _ 1, ← Nat.add_assoc] at hlayers
    have hcovers : (m.covers il c.1.length && m.covers il c.2.length) = true := by
      have hil : il < m.nLayers := by omega
      simp only [Pi05Memory.covers, hil, hk, hv, decide_true, Bool.and_self]
    obtain ⟨m', hm', hstored⟩ := ih (m := (m.cpyK c.1 0 il).cpyV c.2 0 il)
      (fun c hc => hrows c (.tail _ hc)) hlayers
    refine ⟨m', ?_, hstored.nLayers, hstored.maxSeqLen, ?_, ?_⟩
    · rw [storePrefix, if_pos hcovers, hm']
    · intro i hi
      obtain ⟨hki, hvi⟩ := hstored.below i (Nat.lt_succ_of_lt hi)
      rw [hki, hvi]
      exact ⟨Function.update_of_ne hi.ne .., Function.update_of_ne hi.ne ..⟩
    · intro i c' hc'
      cases i with
      | zero =>
        obtain rfl := Option.some.inj hc'
        obtain ⟨hki, hvi⟩ := hstored.below il (Nat.lt_succ_self _)
        rw [Nat.add_zero, hki, hvi]
        simp only [Pi05Memory.cpyK, Pi05Memory.cpyV, Function.update_self, and_self]
      | succ i =>
        rw [Nat.add_comm i 1, ← Nat.add_assoc]
        obtain ⟨hki, hvi⟩ := hstored.rows i c' hc'
        have hother : il + 1 + i ≠ il := by omega
        rw [hki, hvi]
        simp only [Pi05Memory.cpyK, Pi05Memory.cpyV, Function.update_of_ne hother, and_self]

/-- The memory as the context sees it, a row holding the keys and values of all layers. -/
def Pi05Memory.toContext (nLayer : Nat) (nPrefix : Int) (m : Pi05Memory K V) :
    Context.Memory (Fin nLayer → K × V) :=
  ⟨m.maxSeqLen, nPrefix, fun j il => (m.kCache il j, m.vCache il j)⟩

/-- The first of some rows, layer by layer. -/
def layerCaches (rows : Nat → Fin nLayer → K × V) (n : Nat) : List (List K × List V) :=
  List.ofFn fun il =>
    ((List.range n).map fun j => (rows j il).1, (List.range n).map fun j => (rows j il).2)

theorem copyRows_map_range (f : Nat → α) (n : Nat) (rows : Nat → α) (j : Nat) :
    copyRows 0 ((List.range n).map f) rows j = if j < n then f j else rows j := by
  rw [copyRows, if_pos (Nat.zero_le _), Nat.sub_zero, List.getElem?_map]
  split_ifs with hj
  · rw [List.getElem?_range hj, Option.map_some, Option.getD_some]
  · rw [List.getElem?_eq_none (by simpa using hj), Option.map_none, Option.getD_none]

/-- Layer after layer, the copies of the prefix pass are the context's copy of whole rows. -/
theorem storePrefix_toContext {m : Pi05Memory K V} (rows : Nat → Fin nLayer → K × V)
    (hrows : n ≤ m.maxSeqLen) (hlayers : nLayer ≤ m.nLayers) (nPrefix : Int) :
    ∃ m', storePrefix 0 (layerCaches rows n) m = some m' ∧
      m'.toContext nLayer nPrefix =
        (m.toContext nLayer nPrefix).cpy 0 n fun j => some (rows j) := by
  have hlen : ∀ c ∈ layerCaches rows n,
      c.1.length ≤ m.maxSeqLen ∧ c.2.length ≤ m.maxSeqLen := by
    intro c hc
    obtain ⟨il, rfl⟩ := List.mem_ofFn.1 hc
    simpa using hrows
  have hcount : 0 + (layerCaches rows n).length ≤ m.nLayers := by
    rwa [layerCaches, List.length_ofFn, Nat.zero_add]
  obtain ⟨m', hm', hstored⟩ := storePrefix_stored hlen hcount
  refine ⟨m', hm', ?_⟩
  rw [Pi05Memory.toContext, hstored.maxSeqLen]
  simp only [Context.Memory.cpy, Pi05Memory.toContext, Context.Memory.mk.injEq, true_and]
  funext j il
  have hcache : (layerCaches rows n)[il.val]? = some ((List.range n).map fun j => (rows j il).1,
      (List.range n).map fun j => (rows j il).2) := by
    rw [layerCaches, List.getElem?_ofFn, dif_pos il.isLt]
  obtain ⟨hk, hv⟩ := hstored.rows il _ hcache
  rw [Nat.zero_add] at hk hv
  rw [hk, hv, copyRows_map_range, copyRows_map_range]
  by_cases hj : j < n
  · have hin : (0 : Int) ≤ j ∧ (j : Int) < 0 + n := by omega
    rw [if_pos hj, if_pos hj, if_pos hin]
    rfl
  · have hout : ¬ ((0 : Int) ≤ j ∧ (j : Int) < 0 + n) := by omega
    rw [if_neg hj, if_neg hj, if_neg hout]

/-- The views of a layer are that layer's part of the context's view. -/
theorem view_toContext (m : Pi05Memory K V) (nPrefix : Int) (seqLen : Nat) (il : Fin nLayer) :
    ((m.toContext nLayer nPrefix).view seqLen).map (fun row => (row il).1) = m.getK il seqLen ∧
      ((m.toContext nLayer nPrefix).view seqLen).map (fun row => (row il).2) =
        m.getV il seqLen := by
  constructor
  · rw [Context.Memory.view, List.map_map]
    rfl
  · rw [Context.Memory.view, List.map_map]
    rfl

end Prefix

section Refinement
variable [Add S] [Mul S] [Mul G] {E : ActionExpert P S Q K V A F G C X T}
  {caches : List (List K × List V)} {m₀ : Pi05Memory K V} {nPrefix nSuffix : Nat}

/-- Step after step the suffix graph computes over the memory what the layers over concatenated
keys and values do, and the rows of the prefix stay as its pass wrote them. -/
theorem suffixSteps_eq_concat (hcaches : PrefixCaches E nPrefix caches)
    (hlayers : E.layers.length ≤ m₀.nLayers) (hfit : nPrefix + nSuffix ≤ m₀.maxSeqLen) :
    ∃ m g, storePrefix 0 caches m₀ = some m ∧
      buildSuffixGraph m E.layers.length nPrefix nSuffix = some g ∧
      Ordered (fun n => src E.layers.length n ++ copiesBefore n) [] g.nodes ∧
      ∀ vals (steps : List (SuffixStep X T nSuffix)), ∃ states,
        runSteps E g nPrefix ⟨vals, m⟩ steps = some states ∧
          List.Forall₂ (AsConcat E caches) steps states := by
  have hrows : ∀ c ∈ caches, c.1.length ≤ m₀.maxSeqLen ∧ c.2.length ≤ m₀.maxSeqLen := by
    intro c hc
    obtain ⟨hk, hv⟩ := hcaches.rows c hc
    omega
  have hcopied : 0 + caches.length ≤ m₀.nLayers := by
    rwa [Nat.zero_add, hcaches.length]
  obtain ⟨m, hm, hstored⟩ := storePrefix_stored hrows hcopied
  obtain ⟨g, hg, hbuilt, hvelocity, hout⟩ :=
    buildSuffixGraph_built (m := m) (hstored.nLayers ▸ hlayers) (hstored.maxSeqLen ▸ hfit)
  refine ⟨m, g, hm, hg, hbuilt.ordered, ?_⟩
  intro vals steps
  apply runSteps_asConcat hcaches hbuilt hvelocity hout steps
  intro il c hc
  obtain ⟨hk, hv⟩ := hstored.rows il c hc
  rw [Nat.zero_add] at hk hv
  rw [hk, hv]
  exact ⟨stored_copyRows 0 _ _, stored_copyRows 0 _ _⟩

end Refinement

/-- An expert of one layer that is the identity wherever it can be. -/
def identityExpert : ActionExpert Int Int Int Int Int Int Int Int Int Int Int where
  kern := ⟨fun _ q => q, fun _ k => k, fun q kvs => (kvs.map fun e => q * e.1 * e.2).sum, id, id⟩
  rms := id
  layers := [⟨id, id, id, id, id, id, id, id, id, fun c => ⟨c, 0, 1⟩, id, id, id, id,
    fun c => ⟨c, 0, 1⟩, id, id, id⟩]
  actionHorizon := 1
  timestepMlp := id
  actionIn := id
  outputAdaln c := ⟨c, 0, 1⟩
  actionOut := id
  sinusoidalEmbedding := Rat.floor

theorem suffixSteps_eq_concat_identity :
    ∃ m g, storePrefix 0 [([2], [3])] (⟨1, 2, fun _ _ => 0, fun _ _ => 0⟩ : Pi05Memory Int Int) =
        some m ∧
      buildSuffixGraph m 1 1 1 = some g ∧
      Ordered (fun n => src 1 n ++ copiesBefore n) [] g.nodes ∧
      ∀ vals (steps : List (SuffixStep Int Int 1)), ∃ states,
        runSteps identityExpert g 1 ⟨vals, m⟩ steps = some states ∧
          List.Forall₂ (AsConcat identityExpert [([2], [3])]) steps states :=
  suffixSteps_eq_concat (E := identityExpert) ⟨rfl, by decide⟩ (le_refl _) (le_refl _)
end ActQuant.Pi05.SuffixMemory
