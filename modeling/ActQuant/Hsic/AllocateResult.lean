import ActQuant.Hsic.Allocate
import Mathlib.Tactic.Linarith

namespace ActQuant.Hsic
open StateTransition

namespace Problem
variable {ν : Type*} {P : Problem ν}

theorem deltaBits_pos (hinc : Increasing P.sortedTypes) (hi : i + 1 < P.nTypes) (n : ν) :
    0 < P.deltaBits n i := by
  have hi' : i < P.sortedTypes.length := Nat.lt_of_succ_lt hi
  have hlt : (P.typeAt i).bpw < (P.typeAt (i + 1)).bpw := by
    simp only [typeAt, List.getD_eq_getElem?_getD, List.getElem?_eq_getElem hi,
      List.getElem?_eq_getElem hi', Option.getD_some]
    exact List.pairwise_iff_getElem.1 hinc i (i + 1) hi' hi (Nat.lt_succ_self i)
  have hn : (0 : ℚ) < P.getNParams n := Nat.cast_pos.2 (P.getNParams_pos n)
  exact mul_pos (sub_pos.2 hlt) hn

theorem Entry.le_total (e f : Entry ν) : e.le f = true ∨ f.le e = true := by
  simp only [Entry.le, decide_eq_true_eq]
  rcases lt_trichotomy e.negValue f.negValue with h | h | h
  · exact .inl (.inl h)
  · rcases Nat.le_total e.counter f.counter with hc | hc
    · exact .inl (.inr ⟨h, hc⟩)
    · exact .inr (.inr ⟨h.symm, hc⟩)
  · exact .inr (.inl h)

theorem Entry.le_trans {e f g : Entry ν} (hef : e.le f = true) (hfg : f.le g = true) :
    e.le g = true := by
  simp only [Entry.le, decide_eq_true_eq] at *
  rcases hef with hef | ⟨hef, hc⟩ <;> rcases hfg with hfg | ⟨hfg, hc'⟩
  · exact .inl (hef.trans hfg)
  · exact .inl (hfg ▸ hef)
  · exact .inl (hef ▸ hfg)
  · exact .inr ⟨hef.trans hfg, hc.trans hc'⟩

theorem negValue_le_of_popMin {q : List (Entry ν)} (hp : Lib.popMin Entry.le q = some (e, rest))
    (hf : f ∈ q) : e.negValue ≤ f.negValue := by
  have hle := Lib.popMin_le Entry.le_total Entry.le_trans hp hf
  simp only [Entry.le, decide_eq_true_eq] at hle
  rcases hle with h | ⟨h, _⟩
  · exact h.le
  · exact h.le

/-- Every upgrade that still fits is queued with its value at the layer's current error. -/
def Covered (P : Problem ν) (s : State ν) : Prop :=
  ∀ n ∈ P.names, s.currentTypeIdx n + 1 < P.nTypes →
    s.currentBits + P.deltaBits n (s.currentTypeIdx n) ≤ P.targetBits →
    ∃ e ∈ s.pq, Pushed P s n (s.currentTypeIdx n) e

theorem pushed_after_pushes :
    Pushed P (P.pushUpgrades ps s) n i e ↔ Pushed P s n i e := by
  constructor <;> intro h <;>
    exact ⟨h.name_eq, h.fromIdx_eq, by simpa only [pushUpgrades_layerError] using h.negValue_eq⟩

theorem initState_covered (hinc : Increasing P.sortedTypes) : P.Covered P.initState := by
  intro n hn hlt _
  simp only [initState, pushUpgrades_currentTypeIdx, pushed_after_pushes] at hlt ⊢
  exact exists_pushed (p := (n, 0)) (List.mem_map_of_mem hn) hlt (deltaBits_pos hinc hlt n)

/-- A dropped entry is stale or too expensive, so it was not what covered an upgrade that fits. -/
theorem Covered.drop (h : P.Covered s) (hp : Lib.popMin Entry.le s.pq = some (e, rest))
    (ha : P.accepts s e = false) : P.Covered { s with pq := rest } := by
  intro n hn hlt hfit
  obtain ⟨f, hf, hpf⟩ := h n hn hlt hfit
  rcases Lib.eq_or_mem_of_popMin hp hf with rfl | hf
  · have hacc : P.accepts s f = true := by
      rw [accepts_iff, hpf.name_eq, hpf.fromIdx_eq]
      exact ⟨rfl, hfit⟩
    rw [ha] at hacc
    cases hacc
  · exact ⟨f, hf, hpf.name_eq, hpf.fromIdx_eq, hpf.negValue_eq⟩

/-- The entry whose upgrade the next turn of the loop applies, if it applies one. -/
def applied (P : Problem ν) (s : State ν) : Option (Entry ν) :=
  match Lib.popMin Entry.le s.pq with
  | none => none
  | some (e, _) => if P.accepts s e then some e else none

theorem applied_cases (h : P.applied s = some e) :
    ∃ rest, Lib.popMin Entry.le s.pq = some (e, rest) ∧ P.accepts s e = true := by
  simp only [applied] at h
  cases hp : Lib.popMin Entry.le s.pq with
  | none => simp only [hp, reduceCtorEq] at h
  | some p =>
    obtain ⟨f, rest⟩ := p
    simp only [hp] at h
    split_ifs at h with ha
    cases h
    exact ⟨rest, rfl, ha⟩

variable [DecidableEq ν]

theorem mem_repushed (hn : n ∈ P.names) (hl : P.getLayer n = P.getLayer m) :
    (n, s.currentTypeIdx n) ∈ P.repushed m s := by
  by_cases he : n = m
  · subst he
    exact .head _
  · have hmem : n ∈ (P.layerTensors (P.getLayer m)).filter (· ≠ m) := by
      rw [List.mem_filter, layerTensors, List.mem_filter]
      exact ⟨⟨hn, decide_eq_true hl⟩, decide_eq_true he⟩
    exact .tail _ (List.mem_map.2 ⟨n, hmem, rfl⟩)

/-- The upgraded tensor's layer is pushed anew; elsewhere the old entries still stand. -/
theorem Covered.take (h : P.Covered s) (hinc : Increasing P.sortedTypes)
    (hp : Lib.popMin Entry.le s.pq = some (e, rest)) (hlt : e.fromIdx + 1 < P.nTypes) :
    P.Covered (P.applyUpgrade e.name e.fromIdx { s with pq := rest }) := by
  intro n hn hlt' hfit
  simp only [applyUpgrade, pushUpgrades_currentTypeIdx, pushUpgrades_currentBits,
    pushed_after_pushes] at hlt' hfit ⊢
  by_cases hl : P.getLayer n = P.getLayer e.name
  · exact exists_pushed (mem_repushed hn hl) hlt' (deltaBits_pos hinc hlt' n)
  · have he : n ≠ e.name := fun he => hl (he ▸ rfl)
    simp only [upgrade, Function.update_of_ne he] at hlt' hfit ⊢
    have hd := deltaBits_pos hinc hlt e.name
    obtain ⟨f, hf, hpf⟩ := h n hn hlt' (by linarith)
    rcases Lib.eq_or_mem_of_popMin hp hf with rfl | hf
    · exact (he hpf.name_eq.symm).elim
    · refine ⟨f, mem_pushUpgrades_of_mem hf, hpf.name_eq, hpf.fromIdx_eq, ?_⟩
      simpa only [Function.update_of_ne hl] using hpf.negValue_eq

theorem Covered.step (h : P.Covered s) (hinc : Increasing P.sortedTypes)
    (hb : P.Bookkeeping s) (hs : P.step s = some s') : P.Covered s' := by
  obtain ⟨e, rest, hp, ⟨ha, rfl⟩ | ⟨_, rfl⟩⟩ := step_cases hs
  · exact h.drop hp ha
  · exact h.take hinc hp (hb.queued e (Lib.mem_of_popMin hp)).2

theorem Covered.reaches (hbase : P.StartsAtBase) (hinc : Increasing P.sortedTypes)
    (hr : Reaches P.step P.initState s) : P.Covered s := by
  have hboth : P.Bookkeeping s ∧ P.Covered s :=
    Lib.invariant_reaches (I := fun s => P.Bookkeeping s ∧ P.Covered s)
      ⟨initState_bookkeeping hbase, initState_covered hinc⟩
      (fun h hs => ⟨h.1.step hs, h.2.step hinc h.1 hs⟩) hr
  exact hboth.2

/-- Once the queue is empty, no further upgrade fits in the budget. -/
theorem greedyLoop_maximal (hbase : P.StartsAtBase) (hinc : Increasing P.sortedTypes)
    (hn : n ∈ P.names) (hlt : P.greedyLoop.currentTypeIdx n + 1 < P.nTypes) :
    P.targetBits < P.bits (Function.update P.greedyLoop.currentTypeIdx n
      (P.greedyLoop.currentTypeIdx n + 1)) := by
  rw [bits_upgrade _ hn, ← (greedyLoop_bookkeeping hbase).bits_eq]
  by_contra hfit
  have hcov := Covered.reaches hbase hinc (Lib.loop_reaches P.step P.popBound P.initState)
  obtain ⟨e, he, _⟩ := hcov n hn hlt (not_lt.1 hfit)
  have hempty := step_none_iff.1 (greedyLoop_stopped hbase)
  rw [greedyLoop] at hempty
  rw [hempty] at he
  cases he

section Law

/-- The objective the allocator minimises: the sum of the squared layer errors. -/
def objective (P : Problem ν) (idx : ν → Nat) : ℚ :=
  (((P.names.map P.getLayer).dedup).map fun l => P.noiseOf idx l ^ 2).sum

/-- What one more step of a tensor gains for each bit it costs. -/
def improvementPerBit (P : Problem ν) (idx : ν → Nat) (n : ν) : ℚ :=
  let idx' := Function.update idx n (idx n + 1)
  (P.objective idx - P.objective idx') / (P.bits idx' - P.bits idx)

def Fits (P : Problem ν) (idx : ν → Nat) (n : ν) : Prop :=
  n ∈ P.names ∧ idx n + 1 < P.nTypes ∧
    P.bits (Function.update idx n (idx n + 1)) ≤ P.targetBits

/-- The documented law: the upgrade applied is the best one that fits. -/
def GreedyLaw (P : Problem ν) (s : State ν) : Prop :=
  ∀ e, P.applied s = some e → ∀ n, P.Fits s.currentTypeIdx n →
    P.improvementPerBit s.currentTypeIdx n ≤ P.improvementPerBit s.currentTypeIdx e.name

/-- The applied entry's priority was computed from the present error of its layer. -/
def UpToDate (P : Problem ν) (s : State ν) : Prop :=
  ∀ e, P.applied s = some e →
    e.negValue = -P.value (s.layerError (P.getLayer e.name)) e.name e.fromIdx

instance : Decidable (P.UpToDate s) :=
  inferInstanceAs (Decidable (∀ e, P.applied s = some e →
    e.negValue = -P.value (s.layerError (P.getLayer e.name)) e.name e.fromIdx))

theorem objective_upgrade (hn : n ∈ P.names) :
    P.objective idx - P.objective (Function.update idx n (idx n + 1)) =
      P.noiseOf idx (P.getLayer n) ^ 2 -
        (P.noiseOf idx (P.getLayer n) - P.weights n * P.deltaNoise (idx n)) ^ 2 := by
  have hmem : P.getLayer n ∈ (P.names.map P.getLayer).dedup :=
    List.mem_dedup.2 (List.mem_map_of_mem hn)
  have hsum := Lib.sum_map_change (List.nodup_dedup _) hmem
    (f := fun l => P.noiseOf idx l ^ 2)
    (g := fun l => P.noiseOf (Function.update idx n (idx n + 1)) l ^ 2)
    (fun l _ hl => by simp only [noiseOf_upgrade_of_ne hl])
  rw [noiseOf_upgrade hn] at hsum
  simp only [objective]
  linear_combination -hsum

theorem Bookkeeping.improvementPerBit_eq (h : P.Bookkeeping s) (hn : n ∈ P.names) :
    P.improvementPerBit s.currentTypeIdx n =
      P.value (s.layerError (P.getLayer n)) n (s.currentTypeIdx n) := by
  simp only [improvementPerBit, objective_upgrade hn, bits_upgrade _ hn, h.layerError_eq, value,
    add_sub_cancel_left]

/-- With a priority that is up to date, the applied upgrade obeys the law. -/
theorem UpToDate.greedyLaw (hu : P.UpToDate s) (hb : P.Bookkeeping s) (hc : P.Covered s) :
    P.GreedyLaw s := by
  intro e he n ⟨hn, hlt, hfit⟩
  obtain ⟨rest, hp, ha⟩ := applied_cases he
  rw [bits_upgrade _ hn, ← hb.bits_eq] at hfit
  obtain ⟨f, hf, hpf⟩ := hc n hn hlt hfit
  have hle := negValue_le_of_popMin hp hf
  rw [hu e he, hpf.negValue_eq, neg_le_neg_iff] at hle
  have hmem := (hb.queued e (Lib.mem_of_popMin hp)).1
  rw [hb.improvementPerBit_eq hn, hb.improvementPerBit_eq hmem, (accepts_iff.1 ha).1]
  exact hle

end Law

end Problem

namespace Problem
variable {ν : Type*} {P : Problem ν}

theorem typeAt_mem (hi : i < P.nTypes) : P.typeAt i ∈ P.sortedTypes := by
  have hi' : i < P.sortedTypes.length := hi
  rw [typeAt, List.getD_eq_getElem?_getD, List.getElem?_eq_getElem hi', Option.getD_some]
  exact List.getElem_mem hi'

theorem initialBits_eq (hbase : P.StartsAtBase) : P.initialBits = P.bits fun _ => 0 := by
  simp only [initialBits, bits, hbase.typeAt_zero]

variable [DecidableEq ν]

/-- The menu indices of the assignment returned, also when the loop is not entered. -/
def finalIdx (P : Problem ν) : ν → Nat :=
  if P.targetBits ≤ P.initialBits then fun _ => 0 else P.greedyLoop.currentTypeIdx

theorem finalIdx_lt (hbase : P.StartsAtBase) (n : ν) : P.finalIdx n < P.nTypes := by
  simp only [finalIdx]
  split_ifs
  · exact hbase.nTypes_pos
  · exact (greedyLoop_bookkeeping hbase).idx_lt n

theorem currentBits_le_step (h : s.currentBits ≤ P.targetBits) (hs : P.step s = some s') :
    s'.currentBits ≤ P.targetBits := by
  obtain ⟨e, rest, _, ⟨_, rfl⟩ | ⟨ha, rfl⟩⟩ := step_cases hs
  · exact h
  · simp only [applyUpgrade, pushUpgrades_currentBits, upgrade]
    exact (accepts_iff.1 ha).2

theorem currentBits_le_reaches (h : P.initialBits ≤ P.targetBits)
    (hr : Reaches P.step P.initState s) : s.currentBits ≤ P.targetBits := by
  apply Lib.invariant_reaches (I := fun s => s.currentBits ≤ P.targetBits) ?_
    currentBits_le_step hr
  simpa only [initState, pushUpgrades_currentBits] using h

theorem finalIdx_within (hbase : P.StartsAtBase) :
    (∀ n, P.finalIdx n = 0) ∨ P.bits P.finalIdx ≤ P.targetBits := by
  by_cases h : P.targetBits ≤ P.initialBits
  · left
    intro n
    simp only [finalIdx, if_pos h]
  · right
    have hle := currentBits_le_reaches (not_le.1 h).le
      (Lib.loop_reaches P.step P.popBound P.initState)
    have hbits := (greedyLoop_bookkeeping hbase).bits_eq
    simp only [finalIdx, if_neg h, ← hbits]
    exact hle

theorem finalIdx_maximal (hbase : P.StartsAtBase) (hinc : Increasing P.sortedTypes)
    (hn : n ∈ P.names) (hlt : P.finalIdx n + 1 < P.nTypes) :
    P.targetBits < P.bits (Function.update P.finalIdx n (P.finalIdx n + 1)) := by
  by_cases h : P.targetBits ≤ P.initialBits
  · simp only [finalIdx, if_pos h] at hlt ⊢
    have hbits := bits_upgrade (P := P) (fun _ => 0) hn
    have hd := deltaBits_pos hinc hlt n
    rw [initialBits_eq hbase] at h
    rw [hbits]
    linarith
  · simp only [finalIdx, if_neg h] at hlt ⊢
    exact greedyLoop_maximal hbase hinc hn hlt

end Problem

section Result
variable {ν : Type} [DecidableEq ν] {T : Tensors ν}

theorem greedyL2Allocate_spec (T : Tensors ν) (hinc : Increasing menu)
    (hbase : menu.head? = some base) (targetBpw : ℚ) :
    ∃ r, greedyL2Allocate T menu targetBpw base.name = some r ∧
      r.assignments = T.names.map (fun n =>
        (n, ((T.problem menu base targetBpw).typeAt
          ((T.problem menu base targetBpw).finalIdx n)).name)) ∧
      r.achievedBpw = (T.problem menu base targetBpw).bits
        (T.problem menu base targetBpw).finalIdx / T.totalParams := by
  have hstart : (T.problem menu base targetBpw).StartsAtBase := hbase
  have hfind : menu.find? (·.name = base.name) = some base := by
    cases menu with
    | nil => cases hbase
    | cons q qs =>
      obtain rfl : q = base := Option.some.inj hbase
      exact List.find?_cons_of_pos (decide_eq_true rfl)
  simp only [greedyL2Allocate, sortByBpw_of_increasing hinc, hfind, Option.pure_def,
    Option.bind_eq_bind, Option.bind_some]
  split_ifs with h
  · refine ⟨_, rfl, ?_, ?_⟩
    · simp only [Problem.finalIdx, if_pos h, hstart.typeAt_zero]
      rfl
    · simp only [Problem.finalIdx, if_pos h]
      rw [Problem.initialBits_eq hstart]
  · refine ⟨_, rfl, ?_, ?_⟩
    · simp only [Problem.finalIdx, if_neg h]
    · simp only [Problem.finalIdx, if_neg h, (Problem.greedyLoop_bookkeeping hstart).bits_eq]

theorem achievedBpw_eq_computeBpw (hinc : Increasing menu) (hbase : menu.head? = some base)
    (hreg : ∀ q ∈ menu, registry q.name = some q)
    (hr : greedyL2Allocate T menu targetBpw base.name = some r) :
    computeBpw registry T.getNParams r.assignments = some r.achievedBpw := by
  obtain ⟨r', hr', hassign, hachieved⟩ :=
    greedyL2Allocate_spec T hinc hbase targetBpw
  obtain rfl : r' = r := Option.some.inj (hr'.symm.trans hr)
  have hstart : (T.problem menu base targetBpw).StartsAtBase := hbase
  rw [hassign, hachieved, computeBpw_eq]
  · rfl
  · intro n _
    exact hreg _ (Problem.typeAt_mem (Problem.finalIdx_lt hstart n))
  · exact T.totalParams_pos.ne'

/-- Every state of the loop keeps the books, and the result respects them and the budget. -/
theorem allocation_accounts (T : Tensors ν) (hinc : Increasing menu)
    (hbase : menu.head? = some base) (targetBpw : ℚ)
    (hreg : ∀ q ∈ menu, registry q.name = some q) :
    let P := T.problem menu base targetBpw
    (∀ s, Reaches P.step P.initState s → P.Bookkeeping s) ∧
      ∃ r, greedyL2Allocate T menu targetBpw base.name = some r ∧
        r.assignments = T.names.map (fun n => (n, (P.typeAt (P.finalIdx n)).name)) ∧
        (∀ n, P.finalIdx n < P.nTypes) ∧
        ((∀ n, P.finalIdx n = 0) ∨ P.bits P.finalIdx ≤ targetBpw * T.totalParams) ∧
        computeBpw registry T.getNParams r.assignments = some r.achievedBpw := by
  intro P
  have hstart : P.StartsAtBase := hbase
  obtain ⟨r, hr, hassign, _⟩ :=
    greedyL2Allocate_spec T hinc hbase targetBpw
  refine ⟨fun s hs => .reaches hstart hs, r, hr, hassign, ?_, ?_, ?_⟩
  · exact Problem.finalIdx_lt hstart
  · exact Problem.finalIdx_within hstart
  · exact achievedBpw_eq_computeBpw hinc hbase hreg hr

/-- No assigned entry can be traded for the next one of the menu within the budget. -/
theorem allocation_maximal (T : Tensors ν) (hinc : Increasing menu)
    (hbase : menu.head? = some base) (targetBpw : ℚ) :
    let P := T.problem menu base targetBpw
    ∃ r, greedyL2Allocate T menu targetBpw base.name = some r ∧
      r.assignments = T.names.map (fun n => (n, (P.typeAt (P.finalIdx n)).name)) ∧
      ∀ n ∈ T.names, P.finalIdx n + 1 < menu.length →
        targetBpw * T.totalParams <
          P.bits (Function.update P.finalIdx n (P.finalIdx n + 1)) := by
  intro P
  obtain ⟨r, hr, hassign, _⟩ :=
    greedyL2Allocate_spec T hinc hbase targetBpw
  refine ⟨r, hr, hassign, ?_⟩
  intro n hn hlt
  exact Problem.finalIdx_maximal (P := P) hbase hinc hn hlt

/-- An upgrade applied on a priority that is up to date is the best one that fits. -/
theorem greedyLaw_of_upToDate (T : Tensors ν) (hinc : Increasing menu)
    (hbase : menu.head? = some base) (targetBpw : ℚ) :
    let P := T.problem menu base targetBpw
    ∀ s, Reaches P.step P.initState s → P.UpToDate s → P.GreedyLaw s := by
  intro P s hr hu
  exact hu.greedyLaw (.reaches (P := P) hbase hr) (.reaches (P := P) hbase hinc hr)

end Result

section Instances

def q4K : QuantType := ⟨"Q4_K", 9 / 2, .kQuant, 1 / 512⟩
def q5K : QuantType := ⟨"Q5_K", 11 / 2, .kQuant, 1 / 2048⟩
def kMenu : List QuantType := [q4K, q5K]

theorem kMenu_increasing : Increasing kMenu := by decide +kernel

theorem kMenu_head : kMenu.head? = some q4K := rfl

def kRegistry (name : String) : Option QuantType := kMenu.find? (·.name = name)

def attnQ : Tensors String where
  names := ["blk.0.attn_q.weight"]
  nodup := by decide
  nonempty := by decide
  scores _ := 1
  getNParams _ := 16777216
  getNParams_pos _ := by decide
  getLayer _ := 0

theorem allocation_accounts_attnQ :
    let P := attnQ.problem kMenu q4K 6
    (∀ s, Reaches P.step P.initState s → P.Bookkeeping s) ∧
      ∃ r, greedyL2Allocate attnQ kMenu 6 "Q4_K" = some r ∧
        r.assignments = attnQ.names.map (fun n => (n, (P.typeAt (P.finalIdx n)).name)) ∧
        (∀ n, P.finalIdx n < P.nTypes) ∧
        ((∀ n, P.finalIdx n = 0) ∨ P.bits P.finalIdx ≤ 6 * attnQ.totalParams) ∧
        computeBpw kRegistry attnQ.getNParams r.assignments = some r.achievedBpw :=
  allocation_accounts attnQ kMenu_increasing kMenu_head 6 (by decide +kernel)

/-- From a base that is not the cheapest entry, the reported average is not the assignment's. -/
theorem allocation_misbased_reports :
    ∃ r, greedyL2Allocate attnQ kMenu 6 "Q5_K" = some r ∧
      computeBpw kRegistry attnQ.getNParams r.assignments ≠ some r.achievedBpw :=
  ⟨(greedyL2Allocate attnQ kMenu 6 "Q5_K").get (by decide +kernel), by decide +kernel,
    by decide +kernel⟩

theorem allocation_maximal_attnQ :
    let P := attnQ.problem kMenu q4K 5
    ∃ r, greedyL2Allocate attnQ kMenu 5 "Q4_K" = some r ∧
      r.assignments = attnQ.names.map (fun n => (n, (P.typeAt (P.finalIdx n)).name)) ∧
      ∀ n ∈ attnQ.names, P.finalIdx n + 1 < kMenu.length →
        5 * attnQ.totalParams <
          P.bits (Function.update P.finalIdx n (P.finalIdx n + 1)) :=
  allocation_maximal attnQ kMenu_increasing kMenu_head 5

/-- From such a base the loop also stops where the next entry still fits. -/
theorem allocation_misbased_stops :
    let P := attnQ.problem kMenu q5K 6
    ∃ r, greedyL2Allocate attnQ kMenu 6 "Q5_K" = some r ∧
      r.assignments = attnQ.names.map (fun n => (n, (P.typeAt (P.finalIdx n)).name)) ∧
      ∃ n ∈ attnQ.names, P.finalIdx n + 1 < kMenu.length ∧
        P.bits (Function.update P.finalIdx n (P.finalIdx n + 1)) ≤ 6 * attnQ.totalParams :=
  ⟨(greedyL2Allocate attnQ kMenu 6 "Q5_K").get (by decide +kernel), by decide +kernel,
    by decide +kernel, "blk.0.attn_q.weight", by decide +kernel, by decide +kernel,
    by decide +kernel⟩

def twoLayers : Tensors String where
  names := ["blk.0.attn_q.weight", "blk.0.attn_v.weight", "blk.1.attn_q.weight"]
  nodup := by decide
  nonempty := by decide
  scores n := if n = "blk.1.attn_q.weight" then 13 else 10
  getNParams _ := 16777216
  getNParams_pos _ := by decide
  getLayer n := if n = "blk.1.attn_q.weight" then 1 else 0

theorem greedyLaw_of_upToDate_twoLayers :
    let P := twoLayers.problem kMenu q4K 6
    P.UpToDate P.initState ∧ P.GreedyLaw P.initState := by
  have hu : (twoLayers.problem kMenu q4K 6).UpToDate
      (twoLayers.problem kMenu q4K 6).initState := by
    decide +kernel
  exact ⟨hu, greedyLaw_of_upToDate twoLayers kMenu_increasing kMenu_head 6 _ .refl hu⟩

def twoLayersProblem : Problem String := twoLayers.problem kMenu q4K 6

def afterAttnQ : State String :=
  (twoLayersProblem.step twoLayersProblem.initState).getD twoLayersProblem.initState

/-- After `attn_q` of layer 0, the stale entry of `attn_v` is taken before layer 1. -/
theorem greedyLaw_fails :
    ∃ s, Reaches twoLayersProblem.step twoLayersProblem.initState s ∧
      ¬ twoLayersProblem.GreedyLaw s := by
  have hstep : twoLayersProblem.step twoLayersProblem.initState = some afterAttnQ := by
    have hsome : (twoLayersProblem.step twoLayersProblem.initState).isSome := by decide +kernel
    rw [afterAttnQ]
    exact (Option.getD_of_ne_none (Option.isSome_iff_ne_none.1 hsome) _).symm
  have htaken : twoLayersProblem.applied afterAttnQ =
      some ⟨-3900 / 2 ^ 46, 1, "blk.0.attn_v.weight", 0⟩ := by
    decide +kernel
  refine ⟨afterAttnQ, .single hstep, ?_⟩
  intro hlaw
  have hfits : twoLayersProblem.Fits afterAttnQ.currentTypeIdx "blk.1.attn_q.weight" :=
    ⟨by decide +kernel, by decide +kernel, by decide +kernel⟩
  have hbest := hlaw _ htaken _ hfits
  exact absurd hbest (by decide +kernel)

end Instances

end ActQuant.Hsic
