import ActQuant.Hsic.Allocate
import Mathlib.Tactic.NormNum

namespace ActQuant.Hsic

section Dedup
variable {keep : List String} {types : List QuantType} {q : QuantType}

theorem mem_deduplicateQuantMenu (hq : q ∈ types) :
    q ∈ deduplicateQuantMenu types keep ↔
      dedupCandidate keep (types.filter (·.bpw = q.bpw)) = some q := by
  constructor
  · intro h
    obtain ⟨bpw, _, hbpw⟩ := List.mem_filterMap.1 h
    rw [(dedupCandidate_bpw hbpw).2]
    exact hbpw
  · intro h
    have hbpw : q.bpw ∈ ((types.map (·.bpw)).dedup).insertionSort (· ≤ ·) :=
      (List.perm_insertionSort _ _).mem_iff.2 (List.mem_dedup.2 (List.mem_map_of_mem hq))
    exact List.mem_filterMap.2 ⟨q.bpw, hbpw, h⟩

theorem dedupCandidate_singleton (keep : List String) (q : QuantType) :
    dedupCandidate keep [q] = some q := by
  by_cases h : q.name ∈ keep
  · simp only [dedupCandidate, List.filter_cons, h, decide_true, if_true, List.filter_nil]
  · simp only [dedupCandidate, List.filter_cons, h, decide_false, Bool.false_eq_true, if_false,
      List.filter_nil, List.argmin_singleton]

theorem Increasing.getLast_eq (h : Increasing types) (hq : q ∈ types)
    (hle : ∀ p ∈ types, p.bpw ≤ q.bpw) : types.getLast? = some q := by
  induction types with
  | nil => cases hq
  | cons p ps ih =>
    cases ps with
    | nil =>
      rw [List.mem_singleton.1 hq]
      rfl
    | cons p' ps =>
      rw [List.getLast?_cons_cons]
      have hlt : p.bpw < p'.bpw := List.rel_of_pairwise_cons h (.head _)
      have htail : q ∈ p' :: ps := by
        rcases List.mem_cons.1 hq with rfl | hq
        · exact absurd (hle p' (.tail _ (.head _))) (not_le.2 hlt)
        · exact hq
      exact ih (List.Pairwise.of_cons h) htail fun r hr => hle r (.tail _ hr)

end Dedup

section Registry
variable (pow2 : ℚ → ℚ) {keep : List String} {q base max : QuantType}

def iq3S : QuantType := .ofBpw pow2 "IQ3_S" (55 / 16) .importance

def q3K : QuantType := .ofBpw pow2 "Q3_K" (55 / 16) .kQuant

theorem iq3S_mem : iq3S pow2 ∈ quantTypesAll pow2 :=
  List.mem_of_getElem? (i := 7) rfl

theorem q3K_mem : q3K pow2 ∈ quantTypesAll pow2 :=
  List.mem_of_getElem? (i := 8) rfl

/-- Two types of the registry share a bpw, and no others. -/
theorem filter_bpw (h : q ∈ quantTypesAll pow2) :
    (quantTypesAll pow2).filter (·.bpw = q.bpw) =
      if q = iq3S pow2 ∨ q = q3K pow2 then [iq3S pow2, q3K pow2] else [q] := by
  simp only [quantTypesAll, List.mem_cons, List.not_mem_nil, or_false] at h
  rcases h with rfl | rfl | rfl | rfl | rfl | rfl | rfl | rfl | rfl | rfl | rfl | rfl | rfl | rfl
  all_goals
    simp only [quantTypesAll, iq3S, q3K, QuantType.ofBpw, List.filter_cons, List.filter_nil,
      QuantType.mk.injEq]
    norm_num

/-- The forced types prefer Q3_K to the other type of its bpw. -/
def PrefersQ3K (keep : List String) : Prop := "Q3_K" ∈ keep ∧ "IQ3_S" ∉ keep

instance : Decidable (PrefersQ3K keep) := inferInstanceAs (Decidable (_ ∧ _))

/-- With these types forced, a type of the registry is not dropped for another of its bpw. -/
def Survives (keep : List String) (q : QuantType) : Prop :=
  (q.name = "Q3_K" → PrefersQ3K keep) ∧ (q.name = "IQ3_S" → ¬ PrefersQ3K keep)

instance : Decidable (Survives keep q) := inferInstanceAs (Decidable (_ ∧ _))

theorem dedupCandidate_pair :
    dedupCandidate keep [iq3S pow2, q3K pow2] =
      some (if PrefersQ3K keep then q3K pow2 else iq3S pow2) := by
  by_cases hi : "IQ3_S" ∈ keep
  · simp [dedupCandidate, PrefersQ3K, iq3S, q3K, QuantType.ofBpw, hi]
  · by_cases hq : "Q3_K" ∈ keep
    · simp [dedupCandidate, PrefersQ3K, iq3S, q3K, QuantType.ofBpw, hi, hq]
    · simp only [dedupCandidate, PrefersQ3K, iq3S, q3K, QuantType.ofBpw, hi, hq, List.filter_cons,
        List.filter_nil, decide_false, Bool.false_eq_true, if_false, false_and]
      rfl

theorem q3K_of_name (h : q ∈ quantTypesAll pow2) : q.name = "Q3_K" ↔ q = q3K pow2 := by
  constructor
  · intro hname
    have hfound := quantByName_name pow2 h
    rw [hname] at hfound
    exact (Option.some.inj hfound).symm
  · rintro rfl
    rfl

theorem iq3S_of_name (h : q ∈ quantTypesAll pow2) : q.name = "IQ3_S" ↔ q = iq3S pow2 := by
  constructor
  · intro hname
    have hfound := quantByName_name pow2 h
    rw [hname] at hfound
    exact (Option.some.inj hfound).symm
  · rintro rfl
    rfl

theorem iq3S_ne_q3K : iq3S pow2 ≠ q3K pow2 := by
  intro h
  have hname : "IQ3_S" = "Q3_K" := congrArg QuantType.name h
  exact absurd hname (by decide)

theorem dedupCandidate_iff (h : q ∈ quantTypesAll pow2) :
    dedupCandidate keep ((quantTypesAll pow2).filter (·.bpw = q.bpw)) = some q ↔
      Survives keep q := by
  rw [filter_bpw pow2 h, Survives, q3K_of_name pow2 h, iq3S_of_name pow2 h]
  have hne := iq3S_ne_q3K pow2
  by_cases hq : q = q3K pow2
  · subst hq
    rw [if_pos (.inr rfl), dedupCandidate_pair, Option.some_inj]
    by_cases hp : PrefersQ3K keep
    · simp [hp, hne.symm]
    · simp [hp, hne]
  · by_cases hi : q = iq3S pow2
    · subst hi
      rw [if_pos (.inl rfl), dedupCandidate_pair, Option.some_inj]
      by_cases hp : PrefersQ3K keep
      · simp [hp, hne.symm]
      · simp [hp, hne]
    · rw [if_neg (not_or.2 ⟨hi, hq⟩), dedupCandidate_singleton]
      simp [hq, hi]

/-- The menu between two types for any types forced; `main` forces the two. -/
def menu (keep : List String) (base max : QuantType) : List QuantType :=
  deduplicateQuantMenu
    ((quantTypesAll pow2).filter fun q => base.bpw ≤ q.bpw ∧ q.bpw ≤ max.bpw) keep

variable {pow2}

theorem mem_menu_bounds (h : q ∈ menu pow2 keep base max) :
    q ∈ quantTypesAll pow2 ∧ base.bpw ≤ q.bpw ∧ q.bpw ≤ max.bpw := by
  obtain ⟨hq, hrange⟩ := List.mem_filter.1 (mem_of_mem_deduplicateQuantMenu h)
  exact ⟨hq, of_decide_eq_true hrange⟩

/-- All the types of one bpw are in the range with one of them. -/
theorem mem_menu_iff (h : q ∈ quantTypesAll pow2) (hb : base.bpw ≤ q.bpw)
    (hm : q.bpw ≤ max.bpw) : q ∈ menu pow2 keep base max ↔ Survives keep q := by
  have hq : q ∈ (quantTypesAll pow2).filter fun q => base.bpw ≤ q.bpw ∧ q.bpw ≤ max.bpw :=
    List.mem_filter.2 ⟨h, decide_eq_true ⟨hb, hm⟩⟩
  have hsame : ((quantTypesAll pow2).filter
      fun q => base.bpw ≤ q.bpw ∧ q.bpw ≤ max.bpw).filter (·.bpw = q.bpw) =
        (quantTypesAll pow2).filter (·.bpw = q.bpw) := by
    rw [List.filter_filter]
    apply List.filter_congr
    intro p _
    by_cases hp : p.bpw = q.bpw
    · simp [hp, hb, hm]
    · simp [hp]
  rw [menu, mem_deduplicateQuantMenu hq, hsame]
  exact dedupCandidate_iff pow2 h

/-- The allocator starts up as it assumes: its menu runs from the base type to the largest one,
the base type is found in it, and index 0 stands for the base type. -/
structure StartsUp (types : List QuantType) (base max : QuantType) : Prop where
  increasing : Increasing types
  head : types.head? = some base
  last : types.getLast? = some max
  found : (sortByBpw types).find? (·.name = base.name) = some base
  starts : ∀ (T : Tensors String) (targetBpw : ℚ) (n : String),
    let P := T.problem (sortByBpw types) base targetBpw
    P.typeAt (P.initState.currentTypeIdx n) = base

theorem find_of_mem (hb : base ∈ quantTypesAll pow2) (h : base ∈ menu pow2 keep base max) :
    (sortByBpw (menu pow2 keep base max)).find? (·.name = base.name) = some base := by
  have hsorted : sortByBpw (menu pow2 keep base max) = menu pow2 keep base max :=
    sortByBpw_of_increasing (deduplicateQuantMenu_increasing _ _)
  rw [hsorted]
  cases hfind : (menu pow2 keep base max).find? (·.name = base.name) with
  | none =>
    have hne := List.find?_eq_none.1 hfind base h
    simp at hne
  | some q =>
    have hname : q.name = base.name := by simpa using List.find?_some hfind
    have hq := (mem_menu_bounds (List.mem_of_find?_eq_some hfind)).1
    have heq := quantByName_name pow2 hq
    rw [hname, quantByName_name pow2 hb] at heq
    exact heq.symm

theorem startsUp_of_mem (hb : base ∈ quantTypesAll pow2) (hmem : base ∈ menu pow2 keep base max)
    (hmax : max ∈ menu pow2 keep base max) : StartsUp (menu pow2 keep base max) base max := by
  have hinc : Increasing (menu pow2 keep base max) := deduplicateQuantMenu_increasing _ _
  have hhead : (menu pow2 keep base max).head? = some base :=
    hinc.head_eq hmem fun p hp => (mem_menu_bounds hp).2.1
  refine ⟨hinc, hhead, ?_, find_of_mem hb hmem, ?_⟩
  · exact hinc.getLast_eq hmax fun p hp => (mem_menu_bounds hp).2.2
  · intro T targetBpw n P
    have hstart : P.StartsAtBase := by
      rw [Problem.StartsAtBase]
      exact (congrArg List.head? (sortByBpw_of_increasing hinc)).trans hhead
    have hzero : P.initState.currentTypeIdx n = 0 := by
      rw [Problem.initState, Problem.pushUpgrades_currentTypeIdx]
    rw [hzero]
    exact hstart.typeAt_zero

theorem startsUp_iff_of_registered (hb : base ∈ quantTypesAll pow2)
    (hm : max ∈ quantTypesAll pow2) (hle : base.bpw ≤ max.bpw) :
    StartsUp (menu pow2 keep base max) base max ↔ Survives keep base ∧ Survives keep max := by
  rw [← mem_menu_iff hb le_rfl hle, ← mem_menu_iff hm hle le_rfl]
  constructor
  · intro h
    exact ⟨List.mem_of_head? h.head, List.mem_of_getLast? h.last⟩
  · rintro ⟨hmemb, hmemm⟩
    exact startsUp_of_mem hb hmemb hmemm

/-- The start-up goes well if and only if neither the base nor the max type is dropped for the
other type of its bpw. -/
theorem startsUp_iff (pow2 : ℚ → ℚ) (keep : List String) (baseType maxType : String)
    (base max : QuantType) (hbase : quantByName pow2 baseType = some base)
    (hmax : quantByName pow2 maxType = some max) (hle : base.bpw ≤ max.bpw) :
    StartsUp (menu pow2 keep base max) base max ↔ Survives keep base ∧ Survives keep max :=
  startsUp_iff_of_registered (quantByName_cases hbase).1 (quantByName_cases hmax).1 hle

theorem startsUp_iff_IQ2_S :
    let pow2 : ℚ → ℚ := fun x => x
    StartsUp (menu pow2 ["IQ2_S", "Q4_K"] (.ofBpw pow2 "IQ2_S" (41 / 16) .importance)
        (.ofBpw pow2 "Q4_K" (9 / 2) .kQuant)) (.ofBpw pow2 "IQ2_S" (41 / 16) .importance)
        (.ofBpw pow2 "Q4_K" (9 / 2) .kQuant) ↔
      Survives ["IQ2_S", "Q4_K"] (.ofBpw pow2 "IQ2_S" (41 / 16) .importance) ∧
        Survives ["IQ2_S", "Q4_K"] (.ofBpw pow2 "Q4_K" (9 / 2) .kQuant) := by
  have hle : (41 / 16 : ℚ) ≤ 9 / 2 := by norm_num
  exact startsUp_iff (fun x => x) ["IQ2_S", "Q4_K"] "IQ2_S" "Q4_K_M" _ _ rfl rfl hle

/-- The base type Q3_K with the largest type IQ3_S: of the two forced types the menu keeps the
first of the registry only, and the base type is not found in it. -/
theorem not_startsUp_of_same_bpw :
    let pow2 : ℚ → ℚ := fun x => x
    quantByName pow2 "Q3_K" = some (q3K pow2) ∧ quantByName pow2 "IQ3_S" = some (iq3S pow2) ∧
      (q3K pow2).bpw ≤ (iq3S pow2).bpw ∧
      ¬ StartsUp (menu pow2 ["Q3_K", "IQ3_S"] (q3K pow2) (iq3S pow2)) (q3K pow2) (iq3S pow2) := by
  refine ⟨rfl, rfl, le_rfl, fun h => ?_⟩
  have hsurvives := (startsUp_iff_of_registered (q3K_mem _) (iq3S_mem _) le_rfl).1 h
  exact absurd hsurvives.1 (by decide)

end Registry

end ActQuant.Hsic
