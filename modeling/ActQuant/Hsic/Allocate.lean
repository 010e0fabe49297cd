import ActQuant.Hsic.QuantTypes
import ActQuant.Lib.LazyMerge
import ActQuant.Lib.Run
import Mathlib.Algebra.Order.BigOperators.Group.List
import Mathlib.Tactic.LinearCombination

namespace ActQuant.Hsic
open StateTransition

/-- The scored tensors, in the order of `sorted(scores.keys())`. -/
structure Tensors (ν : Type*) where
  names : List ν
  nodup : names.Nodup
  nonempty : names ≠ []
  scores : ν → ℚ
  getNParams : ν → Nat
  getNParams_pos : ∀ n, 0 < getNParams n
  getLayer : ν → Int

def Tensors.weights (T : Tensors ν) (n : ν) : ℚ := max (T.scores n) 0

def Tensors.totalParams (T : Tensors ν) : Nat := (T.names.map T.getNParams).sum

theorem Tensors.totalParams_pos (T : Tensors ν) : 0 < T.totalParams := by
  obtain ⟨n, hn⟩ := List.exists_mem_of_ne_nil _ T.nonempty
  have hle := List.single_le_sum (l := T.names.map T.getNParams) (fun _ _ => Nat.zero_le _)
    _ (List.mem_map_of_mem hn)
  exact (T.getNParams_pos n).trans_le hle

/-- What the greedy loop reads: the tensors, the sorted menu, the base type and the budget. -/
structure Problem (ν : Type*) extends Tensors ν where
  sortedTypes : List QuantType
  baseType : QuantType
  targetBits : ℚ

structure Entry (ν : Type*) where
  negValue : ℚ
  counter : Nat
  name : ν
  fromIdx : Nat
  deriving DecidableEq

/-- The order of the heap's tuples; counters are distinct, so no later field is compared. -/
def Entry.le (e f : Entry ν) : Bool :=
  e.negValue < f.negValue ∨ e.negValue = f.negValue ∧ e.counter ≤ f.counter

structure State (ν : Type*) where
  currentTypeIdx : ν → Nat
  currentBits : ℚ
  layerError : Int → ℚ
  counter : Nat
  pq : List (Entry ν)

namespace Problem
variable {ν : Type*} (P : Problem ν)

def nTypes : Nat := P.sortedTypes.length

def typeAt (i : Nat) : QuantType := P.sortedTypes.getD i default

def deltaNoise (i : Nat) : ℚ := (P.typeAt i).noise - (P.typeAt (i + 1)).noise

def deltaBits (n : ν) (i : Nat) : ℚ :=
  ((P.typeAt (i + 1)).bpw - (P.typeAt i).bpw) * P.getNParams n

def layerTensors (l : Int) : List ν := P.names.filter (P.getLayer · = l)

/-- The improvement per bit of an upgrade in a layer whose error is `el`. -/
def value (el : ℚ) (n : ν) (i : Nat) : ℚ :=
  let elNew := el - P.weights n * P.deltaNoise i
  (el ^ 2 - elNew ^ 2) / P.deltaBits n i

def pushUpgrade (n : ν) (fromIdx : Nat) (s : State ν) : State ν :=
  if P.nTypes - 1 ≤ fromIdx then s
  else if P.deltaBits n fromIdx ≤ 0 then s
  else
    { s with
      pq := ⟨-P.value (s.layerError (P.getLayer n)) n fromIdx, s.counter, n, fromIdx⟩ :: s.pq
      counter := s.counter + 1 }

def pushUpgrades (ps : List (ν × Nat)) (s : State ν) : State ν :=
  ps.foldl (fun t p => P.pushUpgrade p.1 p.2 t) s

def initialBits : ℚ := (P.names.map fun n => P.baseType.bpw * (P.getNParams n : ℚ)).sum

def initState : State ν :=
  P.pushUpgrades (P.names.map fun n => (n, 0))
    { currentTypeIdx := fun _ => 0
      currentBits := P.initialBits
      layerError := fun l => ((P.layerTensors l).map fun n => P.weights n * P.baseType.noise).sum
      counter := 0
      pq := [] }

variable [DecidableEq ν]

/-- Take one upgrade, before anything is pushed for it. -/
def upgrade (n : ν) (i : Nat) (s : State ν) : State ν :=
  { s with
    layerError := Function.update s.layerError (P.getLayer n)
      (s.layerError (P.getLayer n) - P.weights n * P.deltaNoise i)
    currentTypeIdx := Function.update s.currentTypeIdx n (i + 1)
    currentBits := s.currentBits + P.deltaBits n i }

/-- The tensors whose upgrades are pushed after one of `n`: itself, then its layer. -/
def repushed (n : ν) (s : State ν) : List (ν × Nat) :=
  (n, s.currentTypeIdx n) ::
    ((P.layerTensors (P.getLayer n)).filter (· ≠ n)).map fun m => (m, s.currentTypeIdx m)

def applyUpgrade (n : ν) (i : Nat) (s : State ν) : State ν :=
  let s := P.upgrade n i s
  P.pushUpgrades (P.repushed n s) s

def accepts (s : State ν) (e : Entry ν) : Bool :=
  s.currentTypeIdx e.name = e.fromIdx ∧
    s.currentBits + P.deltaBits e.name e.fromIdx ≤ P.targetBits

/-- One turn of `while pq`. -/
def step (s : State ν) : Option (State ν) :=
  match Lib.popMin Entry.le s.pq with
  | none => none
  | some (e, rest) =>
    if P.accepts s e then some (P.applyUpgrade e.name e.fromIdx { s with pq := rest })
    else some { s with pq := rest }

/-- Each tensor is pushed once at the start and at most once for each upgrade taken. -/
def popBound : Nat :=
  P.names.length + P.names.length * (P.names.length * (P.nTypes - 1))

def greedyLoop : State ν := Lib.loop P.step P.popBound P.initState

end Problem

structure Allocation (ν : Type*) where
  assignments : List (ν × String)
  achievedBpw : ℚ
  totalObj : ℚ
  deriving DecidableEq

section
variable [DecidableEq ν]

def Tensors.problem (T : Tensors ν) (sortedTypes : List QuantType) (baseType : QuantType)
    (targetBpw : ℚ) : Problem ν :=
  { T with sortedTypes, baseType, targetBits := targetBpw * T.totalParams }

/-- `greedy_l2_allocate`; `none` when the base type is not in the menu. -/
def greedyL2Allocate (T : Tensors ν) (allowedTypes : List QuantType) (targetBpw : ℚ)
    (baseTypeName : String) : Option (Allocation ν) := do
  let sortedTypes := sortByBpw allowedTypes
  let baseType ← sortedTypes.find? (·.name = baseTypeName)
  let P := T.problem sortedTypes baseType targetBpw
  if P.targetBits ≤ P.initialBits then
    return { assignments := T.names.map fun n => (n, baseType.name)
             achievedBpw := P.initialBits / T.totalParams
             totalObj := 0 }
  else
    let s := P.greedyLoop
    return { assignments := T.names.map fun n => (n, (P.typeAt (s.currentTypeIdx n)).name)
             achievedBpw := s.currentBits / T.totalParams
             totalObj := (((T.names.map T.getLayer).dedup).map fun l => s.layerError l ^ 2).sum }

end

namespace Problem
variable {ν : Type*} (P : Problem ν)

def bits (idx : ν → Nat) : ℚ :=
  (P.names.map fun n => (P.typeAt (idx n)).bpw * (P.getNParams n : ℚ)).sum

def noiseOf (idx : ν → Nat) (l : Int) : ℚ :=
  ((P.layerTensors l).map fun n => P.weights n * (P.typeAt (idx n)).noise).sum

section Push
variable {P}

/-- The entry pushed for a tensor at an index, up to its tie-breaking counter. -/
structure Pushed (P : Problem ν) (s : State ν) (n : ν) (i : Nat) (e : Entry ν) : Prop where
  name_eq : e.name = n
  fromIdx_eq : e.fromIdx = i
  negValue_eq : e.negValue = -P.value (s.layerError (P.getLayer n)) n i

@[simp] theorem pushUpgrade_currentTypeIdx :
    (P.pushUpgrade n i s).currentTypeIdx = s.currentTypeIdx := by
  simp only [pushUpgrade]; split_ifs <;> rfl

@[simp] theorem pushUpgrade_currentBits :
    (P.pushUpgrade n i s).currentBits = s.currentBits := by
  simp only [pushUpgrade]; split_ifs <;> rfl

@[simp] theorem pushUpgrade_layerError :
    (P.pushUpgrade n i s).layerError = s.layerError := by
  simp only [pushUpgrade]; split_ifs <;> rfl

theorem pushUpgrade_pq (P : Problem ν) (n : ν) (i : Nat) (s : State ν) :
    (P.pushUpgrade n i s).pq = s.pq ∧ ¬ (i + 1 < P.nTypes ∧ 0 < P.deltaBits n i) ∨
      i + 1 < P.nTypes ∧ ∃ e, Pushed P s n i e ∧ (P.pushUpgrade n i s).pq = e :: s.pq := by
  simp only [pushUpgrade]
  split_ifs with hi hd
  · exact .inl ⟨rfl, fun h => by omega⟩
  · exact .inl ⟨rfl, fun h => hd.not_gt h.2⟩
  · exact .inr ⟨by omega, _, ⟨rfl, rfl, rfl⟩, rfl⟩

@[simp] theorem pushUpgrades_currentTypeIdx :
    (P.pushUpgrades ps s).currentTypeIdx = s.currentTypeIdx := by
  induction ps generalizing s with
  | nil => rfl
  | cons p ps ih => exact ih.trans pushUpgrade_currentTypeIdx

@[simp] theorem pushUpgrades_currentBits :
    (P.pushUpgrades ps s).currentBits = s.currentBits := by
  induction ps generalizing s with
  | nil => rfl
  | cons p ps ih => exact ih.trans pushUpgrade_currentBits

@[simp] theorem pushUpgrades_layerError :
    (P.pushUpgrades ps s).layerError = s.layerError := by
  induction ps generalizing s with
  | nil => rfl
  | cons p ps ih => exact ih.trans pushUpgrade_layerError

theorem pushUpgrades_cons :
    P.pushUpgrades (p :: ps) s = P.pushUpgrades ps (P.pushUpgrade p.1 p.2 s) := rfl

theorem pushed_after_push :
    Pushed P (P.pushUpgrade m j s) n i e ↔ Pushed P s n i e := by
  constructor <;> intro h <;>
    exact ⟨h.name_eq, h.fromIdx_eq, by simpa only [pushUpgrade_layerError] using h.negValue_eq⟩

theorem mem_pushUpgrades (h : e ∈ (P.pushUpgrades ps s).pq) :
    e ∈ s.pq ∨ ∃ p ∈ ps, p.2 + 1 < P.nTypes ∧ Pushed P s p.1 p.2 e := by
  induction ps generalizing s with
  | nil => exact .inl h
  | cons p ps ih =>
    rw [pushUpgrades_cons] at h
    rcases ih h with he | ⟨q, hq, hlt, hp⟩
    · rcases P.pushUpgrade_pq p.1 p.2 s with ⟨hpq, _⟩ | ⟨hlt, f, hf, hpq⟩
      · exact .inl (hpq ▸ he)
      · rw [hpq] at he
        rcases List.mem_cons.1 he with rfl | he
        · exact .inr ⟨p, .head _, hlt, hf⟩
        · exact .inl he
    · exact .inr ⟨q, .tail _ hq, hlt, pushed_after_push.1 hp⟩

theorem mem_pushUpgrades_of_mem (h : e ∈ s.pq) : e ∈ (P.pushUpgrades ps s).pq := by
  induction ps generalizing s with
  | nil => exact h
  | cons p ps ih =>
    apply ih
    rcases P.pushUpgrade_pq p.1 p.2 s with ⟨hpq, _⟩ | ⟨_, f, _, hpq⟩
    · rwa [hpq]
    · rw [hpq]
      exact .tail _ h

/-- An upgrade that exists and costs bits is in the queue once it has been pushed. -/
theorem exists_pushed (hp : p ∈ ps) (hlt : p.2 + 1 < P.nTypes)
    (hd : 0 < P.deltaBits p.1 p.2) :
    ∃ e ∈ (P.pushUpgrades ps s).pq, Pushed P s p.1 p.2 e := by
  induction ps generalizing s with
  | nil => cases hp
  | cons q ps ih =>
    rcases List.mem_cons.1 hp with rfl | hp
    · rcases P.pushUpgrade_pq p.1 p.2 s with ⟨_, hno⟩ | ⟨_, e, he, hpq⟩
      · exact (hno ⟨hlt, hd⟩).elim
      · have hmem : e ∈ (P.pushUpgrade p.1 p.2 s).pq := hpq ▸ .head _
        have hlater : e ∈ (P.pushUpgrades ps (P.pushUpgrade p.1 p.2 s)).pq :=
          mem_pushUpgrades_of_mem hmem
        exact ⟨e, hlater, he⟩
    · obtain ⟨e, he, hpe⟩ := ih (s := P.pushUpgrade q.1 q.2 s) hp
      exact ⟨e, he, pushed_after_push.1 hpe⟩

theorem pushUpgrades_pq_length (ps : List (ν × Nat)) (s : State ν) :
    (P.pushUpgrades ps s).pq.length ≤ s.pq.length + ps.length := by
  induction ps generalizing s with
  | nil => exact Nat.le_refl _
  | cons p ps ih =>
    have hp : (P.pushUpgrade p.1 p.2 s).pq.length ≤ s.pq.length + 1 := by
      rcases P.pushUpgrade_pq p.1 p.2 s with ⟨hpq, _⟩ | ⟨_, e, _, hpq⟩
      · rw [hpq]; omega
      · rw [hpq]; simp
    have htail := ih (s := P.pushUpgrade p.1 p.2 s)
    rw [pushUpgrades_cons, List.length_cons]
    omega

end Push

section Update
variable [DecidableEq ν] {P}

theorem bits_upgrade (idx : ν → Nat) (hn : n ∈ P.names) :
    P.bits (Function.update idx n (idx n + 1)) = P.bits idx + P.deltaBits n (idx n) := by
  have hsum := Lib.sum_map_change P.nodup hn
    (f := fun m => (P.typeAt (idx m)).bpw * (P.getNParams m : ℚ))
    (g := fun m => (P.typeAt (Function.update idx n (idx n + 1) m)).bpw * (P.getNParams m : ℚ))
    (fun m _ hm => by simp only [Function.update_of_ne hm])
  simp only [Function.update_self] at hsum
  simp only [bits, deltaBits]
  linear_combination hsum

theorem noiseOf_upgrade (hn : n ∈ P.names) :
    P.noiseOf (Function.update idx n (idx n + 1)) (P.getLayer n) =
      P.noiseOf idx (P.getLayer n) - P.weights n * P.deltaNoise (idx n) := by
  have hmem : n ∈ P.layerTensors (P.getLayer n) :=
    List.mem_filter.2 ⟨hn, decide_eq_true rfl⟩
  have hnd : (P.layerTensors (P.getLayer n)).Nodup := P.nodup.filter _
  have hsum := Lib.sum_map_change hnd hmem
    (f := fun m => P.weights m * (P.typeAt (idx m)).noise)
    (g := fun m => P.weights m * (P.typeAt (Function.update idx n (idx n + 1) m)).noise)
    (fun m _ hm => by simp only [Function.update_of_ne hm])
  simp only [Function.update_self] at hsum
  simp only [noiseOf, deltaNoise]
  linear_combination hsum

theorem noiseOf_upgrade_of_ne (hl : l ≠ P.getLayer n) :
    P.noiseOf (Function.update idx n i) l = P.noiseOf idx l := by
  simp only [noiseOf]
  congr 1
  apply List.map_congr_left
  intro m hm
  have hm' : m ≠ n := by
    rintro rfl
    exact hl (of_decide_eq_true (List.mem_filter.1 hm).2).symm
  rw [Function.update_of_ne hm']

end Update

section Step
variable {P}

theorem accepts_iff :
    P.accepts s e = true ↔ s.currentTypeIdx e.name = e.fromIdx ∧
      s.currentBits + P.deltaBits e.name e.fromIdx ≤ P.targetBits := by
  simp only [accepts, Bool.decide_and, Bool.and_eq_true, decide_eq_true_eq]

variable [DecidableEq ν]

/-- One turn of the loop drops the least entry, or takes its upgrade. -/
theorem step_cases (h : P.step s = some s') :
    ∃ e rest, Lib.popMin Entry.le s.pq = some (e, rest) ∧
      (P.accepts s e = false ∧ s' = { s with pq := rest } ∨
        P.accepts s e = true ∧
          s' = P.applyUpgrade e.name e.fromIdx { s with pq := rest }) := by
  simp only [step] at h
  cases hp : Lib.popMin Entry.le s.pq with
  | none => simp only [hp, reduceCtorEq] at h
  | some p =>
    obtain ⟨e, rest⟩ := p
    simp only [hp] at h
    cases ha : P.accepts s e with
    | false =>
      simp only [ha, Bool.false_eq_true, ↓reduceIte, Option.some.injEq] at h
      exact ⟨e, rest, rfl, .inl ⟨ha, h.symm⟩⟩
    | true =>
      simp only [ha, ↓reduceIte, Option.some.injEq] at h
      exact ⟨e, rest, rfl, .inr ⟨ha, h.symm⟩⟩

theorem step_none_iff : P.step s = none ↔ s.pq = [] := by
  rw [← Lib.popMin_none_iff Entry.le]
  constructor
  · intro h
    cases hp : Lib.popMin Entry.le s.pq with
    | none => rfl
    | some p =>
      simp only [step, hp] at h
      split_ifs at h
  · intro h
    simp only [step, h]

end Step

/-- The totals the loop keeps are those of its current assignment. -/
structure Bookkeeping (s : State ν) : Prop where
  idx_lt : ∀ n, s.currentTypeIdx n < P.nTypes
  bits_eq : s.currentBits = P.bits s.currentTypeIdx
  layerError_eq : ∀ l, s.layerError l = P.noiseOf s.currentTypeIdx l
  queued : ∀ e ∈ s.pq, e.name ∈ P.names ∧ e.fromIdx + 1 < P.nTypes

/-- The loop starts at the base type as the caller sets it up: the first entry of the menu. -/
def StartsAtBase : Prop := P.sortedTypes.head? = some P.baseType

variable {P}

theorem StartsAtBase.typeAt_zero (h : P.StartsAtBase) : P.typeAt 0 = P.baseType := by
  rw [StartsAtBase, List.head?_eq_getElem?] at h
  rw [typeAt, List.getD_eq_getElem?_getD, h, Option.getD_some]

theorem StartsAtBase.nTypes_pos (h : P.StartsAtBase) : 0 < P.nTypes := by
  rw [StartsAtBase] at h
  cases hs : P.sortedTypes with
  | nil => simp only [hs, List.head?_nil, reduceCtorEq] at h
  | cons q qs => simp only [nTypes, hs, List.length_cons, Nat.succ_pos]

theorem initState_bookkeeping (h : P.StartsAtBase) : P.Bookkeeping P.initState where
  idx_lt n := by
    simp only [initState, pushUpgrades_currentTypeIdx]
    exact h.nTypes_pos
  bits_eq := by
    simp only [initState, pushUpgrades_currentBits, pushUpgrades_currentTypeIdx, initialBits,
      bits, h.typeAt_zero]
  layerError_eq l := by
    simp only [initState, pushUpgrades_layerError, pushUpgrades_currentTypeIdx, noiseOf,
      h.typeAt_zero]
  queued e he := by
    rcases mem_pushUpgrades he with he | ⟨p, hp, hlt, hpe⟩
    · cases he
    · obtain ⟨n, hn, rfl⟩ := List.mem_map.1 hp
      exact ⟨hpe.name_eq ▸ hn, hpe.fromIdx_eq ▸ hlt⟩

theorem Bookkeeping.pushUpgrades (h : P.Bookkeeping s) (hps : ∀ p ∈ ps, p.1 ∈ P.names) :
    P.Bookkeeping (P.pushUpgrades ps s) where
  idx_lt := by simpa only [pushUpgrades_currentTypeIdx] using h.idx_lt
  bits_eq := by
    simpa only [pushUpgrades_currentBits, pushUpgrades_currentTypeIdx] using h.bits_eq
  layerError_eq := by
    simpa only [pushUpgrades_layerError, pushUpgrades_currentTypeIdx] using h.layerError_eq
  queued e he := by
    rcases mem_pushUpgrades he with he | ⟨p, hp, hlt, hpe⟩
    · exact h.queued e he
    · exact ⟨hpe.name_eq ▸ hps p hp, hpe.fromIdx_eq ▸ hlt⟩

theorem Bookkeeping.pop (h : P.Bookkeeping s)
    (hp : Lib.popMin Entry.le s.pq = some (e, rest)) : P.Bookkeeping { s with pq := rest } :=
  ⟨h.idx_lt, h.bits_eq, h.layerError_eq, fun f hf => h.queued f (Lib.mem_rest_of_popMin hp hf)⟩

theorem layerTensors_length : (P.layerTensors l).length ≤ P.names.length :=
  List.length_filter_le _ _

/-- Upgrades still possible, each of which may push once for every tensor. -/
def measure (P : Problem ν) (s : State ν) : Nat :=
  s.pq.length +
    P.names.length * (P.names.map fun n => P.nTypes - 1 - s.currentTypeIdx n).sum

theorem measure_initState : P.measure P.initState ≤ P.popBound := by
  have hpush := pushUpgrades_pq_length (P := P) (P.names.map fun n => (n, 0))
    { currentTypeIdx := fun _ => 0
      currentBits := P.initialBits
      layerError := fun l =>
        ((P.layerTensors l).map fun n => P.weights n * P.baseType.noise).sum
      counter := 0
      pq := [] }
  simp only [List.length_map, List.length_nil, Nat.zero_add] at hpush
  simp only [measure, initState, pushUpgrades_currentTypeIdx, popBound, Nat.sub_zero,
    List.map_const', List.sum_replicate, smul_eq_mul]
  omega

variable [DecidableEq ν]

theorem repushed_mem (hn : n ∈ P.names) (hp : p ∈ P.repushed n s) :
    p.1 ∈ P.names ∧ p.2 = s.currentTypeIdx p.1 := by
  rcases List.mem_cons.1 hp with rfl | hp
  · exact ⟨hn, rfl⟩
  · obtain ⟨m, hm, rfl⟩ := List.mem_map.1 hp
    exact ⟨List.mem_of_mem_filter (List.mem_of_mem_filter hm), rfl⟩

theorem Bookkeeping.upgrade (h : P.Bookkeeping s) (hn : n ∈ P.names)
    (hi : s.currentTypeIdx n = i) (hlt : i + 1 < P.nTypes) :
    P.Bookkeeping (P.upgrade n i s) where
  idx_lt m := by
    by_cases hm : m = n
    · subst hm
      simpa only [Problem.upgrade, Function.update_self] using hlt
    · simpa only [Problem.upgrade, Function.update_of_ne hm] using h.idx_lt m
  bits_eq := by
    subst hi
    simp only [Problem.upgrade, bits_upgrade _ hn, h.bits_eq]
  layerError_eq l := by
    subst hi
    by_cases hl : l = P.getLayer n
    · subst hl
      simp only [Problem.upgrade, Function.update_self, noiseOf_upgrade hn, h.layerError_eq]
    · simp only [Problem.upgrade, Function.update_of_ne hl, noiseOf_upgrade_of_ne hl,
        h.layerError_eq]
  queued e he := h.queued e he

theorem Bookkeeping.step (h : P.Bookkeeping s) (hs : P.step s = some s') :
    P.Bookkeeping s' := by
  obtain ⟨e, rest, hp, ⟨_, rfl⟩ | ⟨ha, rfl⟩⟩ := step_cases hs
  · exact h.pop hp
  · obtain ⟨hn, hlt⟩ := h.queued e (Lib.mem_of_popMin hp)
    apply ((h.pop hp).upgrade hn (accepts_iff.1 ha).1 hlt).pushUpgrades
    intro p hp
    exact (repushed_mem hn hp).1

/-- The bookkeeping holds at every iteration of the loop. -/
theorem Bookkeeping.reaches (h : P.StartsAtBase) (hr : Reaches P.step P.initState s) :
    P.Bookkeeping s :=
  Lib.invariant_reaches (initState_bookkeeping h) Bookkeeping.step hr

section Termination

theorem repushed_length_le_layer (hn : n ∈ P.names) (s : State ν) :
    (P.repushed n s).length ≤ (P.layerTensors (P.getLayer n)).length := by
  have hmem : n ∈ P.layerTensors (P.getLayer n) :=
    List.mem_filter.2 ⟨hn, decide_eq_true rfl⟩
  have hlt : ((P.layerTensors (P.getLayer n)).filter (· ≠ n)).length <
      (P.layerTensors (P.getLayer n)).length :=
    List.length_filter_lt_length_iff_exists.2 ⟨n, hmem, by simp⟩
  rw [repushed, List.length_cons, List.length_map]
  exact hlt

theorem repushed_length (hn : n ∈ P.names) : (P.repushed n s).length ≤ P.names.length :=
  (repushed_length_le_layer hn s).trans P.layerTensors_length

theorem remaining_upgrade (idx : ν → Nat) (hn : n ∈ P.names) (hlt : idx n + 1 < P.nTypes) :
    (P.names.map fun m => P.nTypes - 1 - Function.update idx n (idx n + 1) m).sum + 1 =
      (P.names.map fun m => P.nTypes - 1 - idx m).sum := by
  have hsum := Lib.sum_map_change P.nodup hn
    (f := fun m => P.nTypes - 1 - idx m)
    (g := fun m => P.nTypes - 1 - Function.update idx n (idx n + 1) m)
    (fun m _ hm => by simp only [Function.update_of_ne hm])
  simp only [Function.update_self] at hsum
  omega

theorem measure_step (h : P.Bookkeeping s) (hs : P.step s = some s') :
    P.measure s' < P.measure s := by
  obtain ⟨e, rest, hp, ⟨_, rfl⟩ | ⟨ha, rfl⟩⟩ := step_cases hs
  · have hlen := Lib.popMin_length hp
    simp only [measure]
    omega
  · obtain ⟨hn, hlt⟩ := h.queued e (Lib.mem_of_popMin hp)
    have hlen := Lib.popMin_length hp
    have hi := (accepts_iff.1 ha).1
    have hpush := pushUpgrades_pq_length (P := P)
      (P.repushed e.name (P.upgrade e.name e.fromIdx { s with pq := rest }))
      (P.upgrade e.name e.fromIdx { s with pq := rest })
    have hrep := repushed_length (P := P) hn
      (s := P.upgrade e.name e.fromIdx { s with pq := rest })
    have hrem := remaining_upgrade s.currentTypeIdx hn (hi ▸ hlt)
    simp only [measure, applyUpgrade, pushUpgrades_currentTypeIdx]
    simp only [Problem.upgrade, hi] at hpush hrep hrem ⊢
    rw [← hrem, Nat.mul_add]
    omega

theorem greedyLoop_stopped (h : P.StartsAtBase) : P.step P.greedyLoop = none :=
  Lib.loop_stopped P.measure Bookkeeping.step measure_step (initState_bookkeeping h)
    measure_initState

theorem greedyLoop_bookkeeping (h : P.StartsAtBase) : P.Bookkeeping P.greedyLoop :=
  .reaches h (Lib.loop_reaches _ _ _)

end Termination

end Problem

end ActQuant.Hsic
