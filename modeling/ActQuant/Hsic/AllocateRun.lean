import ActQuant.Hsic.Allocate

namespace ActQuant.Hsic
open StateTransition

/-- The loop with what it has done: the number of entries popped, and the tensors upgraded, the
last one first. The pushes are counted by the state itself. -/
structure Ledger (ν : Type*) where
  state : State ν
  pops : Nat
  upgraded : List ν

namespace Problem
variable {ν : Type*} (P : Problem ν)

section Pushes
variable {P}

theorem pushUpgrade_counter (P : Problem ν) (n : ν) (i : Nat) (s : State ν) :
    (P.pushUpgrade n i s).counter = s.counter ∧ (P.pushUpgrade n i s).pq = s.pq ∨
      i + 1 < P.nTypes ∧ (P.pushUpgrade n i s).counter = s.counter + 1 ∧
        ∃ e, Pushed P s n i e ∧ (P.pushUpgrade n i s).pq = e :: s.pq := by
  simp only [pushUpgrade]
  split_ifs with hi hd
  · exact .inl ⟨rfl, rfl⟩
  · exact .inl ⟨rfl, rfl⟩
  · exact .inr ⟨by omega, rfl, _, ⟨rfl, rfl, rfl⟩, rfl⟩

/-- Every push is one entry more, and there is at most one for each upgrade offered. -/
theorem pushUpgrades_counter (ps : List (ν × Nat)) (s : State ν) :
    (P.pushUpgrades ps s).counter ≤ s.counter + ps.length ∧
      (P.pushUpgrades ps s).counter + s.pq.length =
        s.counter + (P.pushUpgrades ps s).pq.length := by
  induction ps generalizing s with
  | nil => exact ⟨Nat.le_refl _, rfl⟩
  | cons p ps ih =>
    obtain ⟨hle, heq⟩ := ih (P.pushUpgrade p.1 p.2 s)
    rw [pushUpgrades_cons, List.length_cons]
    rcases P.pushUpgrade_counter p.1 p.2 s with ⟨hc, hpq⟩ | ⟨_, hc, e, _, hpq⟩
    · rw [hc] at hle heq
      rw [hpq] at heq
      omega
    · rw [hc] at hle heq
      rw [hpq, List.length_cons] at heq
      omega

end Pushes

variable [DecidableEq ν]

def ledgerStep (L : Ledger ν) : Option (Ledger ν) :=
  (Lib.popMin Entry.le L.state.pq).bind fun popped =>
    (P.step L.state).map fun s =>
      { state := s
        pops := L.pops + 1
        upgraded := if P.accepts L.state popped.1 then popped.1.name :: L.upgraded
          else L.upgraded }

def ledgerStart : Ledger ν := ⟨P.initState, 0, []⟩

/-- The entries that the upgrades of these tensors can push, one for each tensor of the layer. -/
def layerSizes (upgraded : List ν) : Nat :=
  (upgraded.map fun n => (P.layerTensors (P.getLayer n)).length).sum

/-- What the counts of a run amount to. -/
structure Accounted (L : Ledger ν) : Prop where
  idx_le : ∀ n, L.state.currentTypeIdx n ≤ P.nTypes - 1
  queued : ∀ e ∈ L.state.pq, e.name ∈ P.names ∧ e.fromIdx + 1 < P.nTypes
  upgraded_mem : ∀ n ∈ L.upgraded, n ∈ P.names
  upgrades : L.upgraded.length = (P.names.map L.state.currentTypeIdx).sum
  pushes : L.state.counter ≤ P.initState.counter + P.layerSizes L.upgraded
  pops : L.pops + L.state.pq.length = L.state.counter

section Step
variable {P}

theorem ledgerStep_cases (h : P.ledgerStep L = some L') :
    ∃ e rest, Lib.popMin Entry.le L.state.pq = some (e, rest) ∧ L'.pops = L.pops + 1 ∧
      (L'.upgraded = L.upgraded ∧ L'.state = { L.state with pq := rest } ∨
        L.state.currentTypeIdx e.name = e.fromIdx ∧ L'.upgraded = e.name :: L.upgraded ∧
          L'.state = P.applyUpgrade e.name e.fromIdx { L.state with pq := rest }) := by
  obtain ⟨popped, hpop, h⟩ := Option.bind_eq_some_iff.1 h
  obtain ⟨s, hs, rfl⟩ := Option.map_eq_some_iff.1 h
  obtain ⟨e, rest, hp, hcases⟩ := step_cases hs
  obtain rfl := Option.some.inj (hpop.symm.trans hp)
  refine ⟨e, rest, hp, rfl, ?_⟩
  rcases hcases with ⟨ha, rfl⟩ | ⟨ha, rfl⟩
  · exact .inl ⟨if_neg (by rw [ha]; exact Bool.false_ne_true), rfl⟩
  · exact .inr ⟨(accepts_iff.1 ha).1, if_pos ha, rfl⟩

theorem ledgerStep_state (L : Ledger ν) :
    (P.ledgerStep L).map Ledger.state = P.step L.state := by
  rw [ledgerStep]
  cases hp : Lib.popMin Entry.le L.state.pq with
  | none => rw [step_none_iff.2 ((Lib.popMin_none_iff Entry.le).1 hp), Option.bind_none]; rfl
  | some popped =>
    rw [Option.bind_some, Option.map_map]
    exact Option.map_id'

omit [DecidableEq ν] in
theorem accounted_start (P : Problem ν) : P.Accounted P.ledgerStart where
  idx_le n := by
    simp only [ledgerStart, initState, pushUpgrades_currentTypeIdx, Nat.zero_le]
  queued e he := by
    rcases mem_pushUpgrades he with he | ⟨p, hp, hlt, hpe⟩
    · cases he
    · obtain ⟨n, hn, rfl⟩ := List.mem_map.1 hp
      exact ⟨hpe.name_eq ▸ hn, hpe.fromIdx_eq ▸ hlt⟩
  upgraded_mem n hn := by cases hn
  upgrades := by
    simp only [ledgerStart, initState, pushUpgrades_currentTypeIdx, List.length_nil,
      List.map_const', List.sum_replicate, smul_zero]
  pushes := Nat.le_add_right _ _
  pops := by
    have hcount := (pushUpgrades_counter (P := P) (P.names.map fun n => (n, 0))
      { currentTypeIdx := fun _ => 0
        currentBits := P.initialBits
        layerError := fun l =>
          ((P.layerTensors l).map fun n => P.weights n * P.baseType.noise).sum
        counter := 0
        pq := [] }).2
    simp only [List.length_nil, Nat.add_zero, Nat.zero_add] at hcount
    rw [ledgerStart, Nat.zero_add]
    exact hcount.symm

theorem sum_update (hn : n ∈ P.names) (idx : ν → Nat) :
    (P.names.map (Function.update idx n (idx n + 1))).sum = (P.names.map idx).sum + 1 := by
  have hsum := Lib.sum_map_change P.nodup hn (f := idx)
    (g := Function.update idx n (idx n + 1))
    (fun m _ hm => Function.update_of_ne hm _ _)
  rw [Function.update_self] at hsum
  omega

omit [DecidableEq ν] in
theorem Accounted.drop (h : P.Accounted L)
    (hp : Lib.popMin Entry.le L.state.pq = some (e, rest)) :
    P.Accounted ⟨{ L.state with pq := rest }, L.pops + 1, L.upgraded⟩ where
  idx_le := h.idx_le
  queued f hf := h.queued f (Lib.mem_rest_of_popMin hp hf)
  upgraded_mem := h.upgraded_mem
  upgrades := h.upgrades
  pushes := h.pushes
  pops := by
    have hlen := Lib.popMin_length hp
    have hcount := h.pops
    simp only
    omega

/-- An upgrade is one pop, one step of its tensor, and at most the pushes of its layer. -/
theorem Accounted.take (h : P.Accounted L)
    (hp : Lib.popMin Entry.le L.state.pq = some (e, rest))
    (hidx : L.state.currentTypeIdx e.name = e.fromIdx) {s : State ν}
    (hs : s = P.upgrade e.name e.fromIdx { L.state with pq := rest }) :
    P.Accounted ⟨P.pushUpgrades (P.repushed e.name s) s, L.pops + 1, e.name :: L.upgraded⟩ := by
  obtain ⟨hn, hlt⟩ := h.queued e (Lib.mem_of_popMin hp)
  have hcounter : s.counter = L.state.counter := by rw [hs]; rfl
  have hpq : s.pq = rest := by rw [hs]; rfl
  have hnew : s.currentTypeIdx = Function.update L.state.currentTypeIdx e.name
      (L.state.currentTypeIdx e.name + 1) := by
    rw [hs, Problem.upgrade, hidx]
  obtain ⟨hle, heq⟩ := pushUpgrades_counter (P := P) (P.repushed e.name s) s
  constructor
  case idx_le =>
    intro m
    simp only [pushUpgrades_currentTypeIdx]
    by_cases hm : m = e.name
    · rw [hm, hnew, Function.update_self, hidx]
      omega
    · rw [hnew, Function.update_of_ne hm]
      exact h.idx_le m
  case queued =>
    intro f hf
    rcases mem_pushUpgrades hf with hf | ⟨p, hpm, hpt, hpf⟩
    · exact h.queued f (Lib.mem_rest_of_popMin hp (hpq ▸ hf))
    · exact ⟨hpf.name_eq ▸ (repushed_mem hn hpm).1, hpf.fromIdx_eq ▸ hpt⟩
  case upgraded_mem => exact List.forall_mem_cons.2 ⟨hn, h.upgraded_mem⟩
  case upgrades =>
    simp only [pushUpgrades_currentTypeIdx]
    rw [hnew, sum_update hn, List.length_cons, h.upgrades]
  case pushes =>
    have hrep := repushed_length_le_layer hn s
    have hpushes := h.pushes
    have hsizes : P.layerSizes (e.name :: L.upgraded) =
        (P.layerTensors (P.getLayer e.name)).length + P.layerSizes L.upgraded := by
      rw [layerSizes, List.map_cons, List.sum_cons, layerSizes]
    simp only [hsizes]
    omega
  case pops =>
    have hlen := Lib.popMin_length hp
    have hcount := h.pops
    rw [hpq] at heq
    simp only
    omega

theorem Accounted.step (h : P.Accounted L) (hs : P.ledgerStep L = some L') :
    P.Accounted L' := by
  obtain ⟨e, rest, hp, hpops, hcases⟩ := ledgerStep_cases hs
  obtain ⟨s, pops, upgraded⟩ := L'
  simp only at hpops hcases
  rcases hcases with ⟨hup, hstate⟩ | ⟨hidx, hup, hstate⟩
  · rw [hpops, hup, hstate]
    exact h.drop hp
  · rw [hpops, hup, hstate]
    exact h.take hp hidx rfl

theorem Accounted.reaches (h : Reaches P.ledgerStep P.ledgerStart L) : P.Accounted L :=
  Lib.invariant_reaches (accounted_start P) Accounted.step h

omit [DecidableEq ν] in
/-- No tensor goes further than the end of the menu. -/
theorem Accounted.upgrades_le (h : P.Accounted L) :
    L.upgraded.length ≤ P.names.length * (P.nTypes - 1) := by
  rw [h.upgrades, ← List.length_map (f := L.state.currentTypeIdx)]
  apply List.sum_le_card_nsmul
  intro i hi
  obtain ⟨n, _, rfl⟩ := List.mem_map.1 hi
  exact h.idx_le n

omit [DecidableEq ν] in
theorem layerSizes_le (upgraded : List ν) :
    P.layerSizes upgraded ≤ upgraded.length * P.names.length := by
  rw [layerSizes, ← List.length_map (f := fun n => (P.layerTensors (P.getLayer n)).length)]
  apply List.sum_le_card_nsmul
  intro i hi
  obtain ⟨n, _, rfl⟩ := List.mem_map.1 hi
  exact layerTensors_length

omit [DecidableEq ν] in
theorem initState_counter_le (P : Problem ν) : P.initState.counter ≤ P.names.length := by
  have hle := (pushUpgrades_counter (P := P) (P.names.map fun n => (n, 0))
    { currentTypeIdx := fun _ => 0
      currentBits := P.initialBits
      layerError := fun l =>
        ((P.layerTensors l).map fun n => P.weights n * P.baseType.noise).sum
      counter := 0
      pq := [] }).1
  rw [List.length_map, Nat.zero_add] at hle
  exact hle

omit [DecidableEq ν] in
theorem Accounted.pops_le (h : P.Accounted L) : L.pops ≤ P.popBound := by
  have hpops := h.pops
  have hpushes := h.pushes
  have hinit := initState_counter_le P
  have hlayers := P.layerSizes_le L.upgraded
  have hup := Nat.mul_le_mul_right P.names.length h.upgrades_le
  rw [popBound, Nat.mul_comm P.names.length (P.names.length * _)]
  omega

end Step

/-- The loop with its record goes through the states of the loop. -/
theorem ledger_loop_state (n : Nat) (L : Ledger ν) :
    (Lib.loop P.ledgerStep n L).state = Lib.loop P.step n L.state := by
  induction n generalizing L with
  | zero => rfl
  | succ n ih =>
    have hstep := P.ledgerStep_state L
    cases hL : P.ledgerStep L with
    | none =>
      rw [hL, Option.map_none] at hstep
      simp only [Lib.loop, hL, ← hstep]
    | some L' =>
      rw [hL, Option.map_some] at hstep
      simp only [Lib.loop, hL, ← hstep]
      exact ih L'

theorem ledger_stopped : P.ledgerStep (Lib.loop P.ledgerStep P.popBound P.ledgerStart) = none := by
  apply Lib.loop_stopped (I := P.Accounted) (fun L => P.popBound - L.pops) Accounted.step
  · intro L L' h hs
    have hle := (h.step hs).pops_le
    obtain ⟨_, _, _, hpops, _⟩ := ledgerStep_cases hs
    omega
  · exact accounted_start P
  · exact Nat.sub_le _ _

/-- The greedy loop ends, whatever the instance, and so do the counts of each of its turns: no
tensor is upgraded beyond the menu, and what is pushed after the start is pushed for the tensors
of the layer of an upgrade. -/
theorem greedyLoop_ends (P : Problem ν) :
    (∃ L, Reaches P.ledgerStep P.ledgerStart L ∧ P.ledgerStep L = none ∧
      L.state = P.greedyLoop ∧ P.step P.greedyLoop = none) ∧
    ∀ L, Reaches P.ledgerStep P.ledgerStart L →
      L.upgraded.length ≤ P.names.length * (P.nTypes - 1) ∧
        L.state.counter ≤ P.initState.counter + P.layerSizes L.upgraded ∧
          L.pops ≤ L.state.counter := by
  constructor
  · have hstate := P.ledger_loop_state P.popBound P.ledgerStart
    have hstep := P.ledgerStep_state (Lib.loop P.ledgerStep P.popBound P.ledgerStart)
    rw [P.ledger_stopped, Option.map_none, hstate] at hstep
    exact ⟨_, Lib.loop_reaches _ _ _, P.ledger_stopped, hstate, hstep.symm⟩
  · intro L hL
    have h := Accounted.reaches hL
    exact ⟨h.upgrades_le, h.pushes, Nat.le_of_add_right_le h.pops.le⟩

end Problem
end ActQuant.Hsic
