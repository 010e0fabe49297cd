import ActQuant.Lib.Lists
import Mathlib.Data.List.Dedup
import Mathlib.Data.List.MinMax
import Mathlib.Data.List.Sort
import Mathlib.Algebra.Order.Field.Rat

namespace ActQuant.Hsic

inductive Family where
  | importance | nonLinear | microscaling | kQuant | basic
  deriving DecidableEq, Inhabited

/-- `FAMILY_PREFERENCE`. -/
def Family.preference : Family → Nat
  | .importance => 0
  | .nonLinear => 1
  | .microscaling => 2
  | .kQuant => 3
  | .basic => 4

structure QuantType where
  name : String
  bpw : ℚ
  family : Family
  noise : ℚ
  deriving DecidableEq, Inhabited

/-- A registry entry, its noise computed as `2.0 ** (-2.0 * bpw)`. -/
def QuantType.ofBpw (pow2 : ℚ → ℚ) (name : String) (bpw : ℚ) (family : Family) : QuantType :=
  ⟨name, bpw, family, pow2 (-2 * bpw)⟩

/-- `QUANT_TYPES_ALL`; the power of two is a parameter, since most noises are irrational. -/
def quantTypesAll (pow2 : ℚ → ℚ) : List QuantType :=
  [.ofBpw pow2 "IQ1_S" (25 / 16) .importance,
   .ofBpw pow2 "IQ1_M" (7 / 4) .importance,
   .ofBpw pow2 "IQ2_XXS" (33 / 16) .importance,
   .ofBpw pow2 "IQ2_XS" (37 / 16) .importance,
   .ofBpw pow2 "IQ2_S" (41 / 16) .importance,
   .ofBpw pow2 "Q2_K" (21 / 8) .kQuant,
   .ofBpw pow2 "IQ3_XXS" (49 / 16) .importance,
   .ofBpw pow2 "IQ3_S" (55 / 16) .importance,
   .ofBpw pow2 "Q3_K" (55 / 16) .kQuant,
   .ofBpw pow2 "IQ4_XS" (17 / 4) .importance,
   .ofBpw pow2 "Q4_K" (9 / 2) .kQuant,
   .ofBpw pow2 "Q5_K" (11 / 2) .kQuant,
   .ofBpw pow2 "Q6_K" (105 / 16) .kQuant,
   .ofBpw pow2 "Q8_0" (17 / 2) .basic]

/-- `_PRESET_ALIASES`. -/
def presetAliases : List (String × String) :=
  [("Q3_K_S", "Q3_K"), ("Q3_K_M", "Q3_K"), ("Q3_K_L", "Q3_K"), ("Q4_K_S", "Q4_K"),
   ("Q4_K_M", "Q4_K"), ("Q5_K_S", "Q5_K"), ("Q5_K_M", "Q5_K")]

/-- `QUANT_BY_NAME`: the registry by name, with the preset suffixes resolved. -/
def quantByName (pow2 : ℚ → ℚ) (name : String) : Option QuantType :=
  (quantTypesAll pow2).find? (·.name = (presetAliases.lookup name).getD name)

/-- `sorted(types, key=lambda qt: qt.bpw)`. -/
def sortByBpw (types : List QuantType) : List QuantType :=
  types.insertionSort (·.bpw ≤ ·.bpw)

/-- The type kept among those of one bpw: a forced one, or else the family's favourite. -/
def dedupCandidate (keep : List String) (candidates : List QuantType) : Option QuantType :=
  match candidates.filter (·.name ∈ keep) with
  | forced :: _ => some forced
  | [] => candidates.argmin (·.family.preference)

def deduplicateQuantMenu (types : List QuantType) (keep : List String) : List QuantType :=
  (((types.map (·.bpw)).dedup).insertionSort (· ≤ ·)).filterMap fun bpw =>
    dedupCandidate keep (types.filter (·.bpw = bpw))

/-- The menu `main` hands to the allocator: the types between the base and the maximum. -/
def allowedTypes (pow2 : ℚ → ℚ) (base max : QuantType) : List QuantType :=
  deduplicateQuantMenu
    ((quantTypesAll pow2).filter fun q => base.bpw ≤ q.bpw ∧ q.bpw ≤ max.bpw)
    [base.name, max.name]

/-- A menu as the allocator is handed it: no two types of the same bpw, cheapest first. -/
def Increasing (menu : List QuantType) : Prop := menu.Pairwise (·.bpw < ·.bpw)

instance : Decidable (Increasing menu) :=
  inferInstanceAs (Decidable (menu.Pairwise (·.bpw < ·.bpw)))

theorem sortByBpw_of_increasing {menu : List QuantType} (h : Increasing menu) :
    sortByBpw menu = menu :=
  (h.imp le_of_lt).insertionSort_eq

section Menu
variable {keep : List String} {types : List QuantType} {q : QuantType}

theorem mem_of_dedupCandidate (h : dedupCandidate keep types = some q) : q ∈ types := by
  simp only [dedupCandidate] at h
  cases hf : types.filter (·.name ∈ keep) with
  | nil =>
    simp only [hf] at h
    exact List.argmin_mem h
  | cons forced rest =>
    simp only [hf, Option.some.injEq] at h
    have hmem : forced ∈ types.filter (·.name ∈ keep) := hf ▸ .head _
    exact h ▸ List.mem_of_mem_filter hmem

theorem dedupCandidate_bpw (h : dedupCandidate keep (types.filter (·.bpw = bpw)) = some q) :
    q ∈ types ∧ q.bpw = bpw := by
  obtain ⟨hq, hbpw⟩ := List.mem_filter.1 (mem_of_dedupCandidate h)
  exact ⟨hq, of_decide_eq_true hbpw⟩

theorem mem_of_mem_deduplicateQuantMenu (h : q ∈ deduplicateQuantMenu types keep) :
    q ∈ types := by
  obtain ⟨bpw, _, hq⟩ := List.mem_filterMap.1 h
  exact (dedupCandidate_bpw hq).1

theorem deduplicateQuantMenu_increasing (types : List QuantType) (keep : List String) :
    Increasing (deduplicateQuantMenu types keep) := by
  have hnd : ((types.map (·.bpw)).dedup.insertionSort (· ≤ ·)).Nodup :=
    (List.perm_insertionSort _ _).nodup_iff.2 (List.nodup_dedup _)
  have hlt : ((types.map (·.bpw)).dedup.insertionSort (· ≤ ·)).Pairwise (· < ·) :=
    ((List.pairwise_insertionSort (· ≤ ·) _).and hnd).imp
      (fun ⟨hle, hne⟩ => lt_of_le_of_ne hle hne)
  rw [Increasing, deduplicateQuantMenu, List.pairwise_filterMap]
  apply hlt.imp
  intro a b hab p hp q hq
  rw [(dedupCandidate_bpw hp).2, (dedupCandidate_bpw hq).2]
  exact hab

theorem Increasing.head_eq (h : Increasing types) (hq : q ∈ types)
    (hle : ∀ p ∈ types, q.bpw ≤ p.bpw) : types.head? = some q := by
  cases types with
  | nil => cases hq
  | cons p ps =>
    rcases List.mem_cons.1 hq with rfl | hq
    · rfl
    · have hlt := List.rel_of_pairwise_cons h hq
      exact absurd (hle p (.head _)) (not_le.2 hlt)

/-- A base type that survives the deduplication heads the menu of `main`. -/
theorem allowedTypes_head (pow2 : ℚ → ℚ) (base max : QuantType)
    (h : base ∈ allowedTypes pow2 base max) : (allowedTypes pow2 base max).head? = some base := by
  apply (deduplicateQuantMenu_increasing _ _).head_eq h
  intro p hp
  have hmem := (List.mem_filter.1 (mem_of_mem_deduplicateQuantMenu hp)).2
  exact (of_decide_eq_true hmem).1

theorem quantByName_name (pow2 : ℚ → ℚ) (h : q ∈ quantTypesAll pow2) :
    quantByName pow2 q.name = some q := by
  simp only [quantTypesAll, List.mem_cons, List.not_mem_nil, or_false] at h
  rcases h with rfl | rfl | rfl | rfl | rfl | rfl | rfl | rfl | rfl | rfl | rfl | rfl | rfl | rfl
  all_goals rfl

/-- Names and widths do not depend on how the noises are computed. -/
theorem exists_registered (pow2 pow2' : ℚ → ℚ) (h : q ∈ quantTypesAll pow2) :
    ∃ q' ∈ quantTypesAll pow2', q'.name = q.name ∧ q'.bpw = q.bpw := by
  have hsame : (quantTypesAll pow2).map (fun q => (q.name, q.bpw)) =
      (quantTypesAll pow2').map fun q => (q.name, q.bpw) := rfl
  have hmem : (q.name, q.bpw) ∈ (quantTypesAll pow2').map fun q => (q.name, q.bpw) :=
    hsame ▸ List.mem_map_of_mem h
  obtain ⟨q', hq', heq⟩ := List.mem_map.1 hmem
  exact ⟨q', hq', congrArg Prod.fst heq, congrArg Prod.snd heq⟩

theorem quantByName_cases (h : quantByName pow2 name = some q) :
    q ∈ quantTypesAll pow2 ∧ (q.name = name ∨ (name, q.name) ∈ presetAliases) := by
  rw [quantByName] at h
  refine ⟨List.mem_of_find?_eq_some h, ?_⟩
  have hname : q.name = (presetAliases.lookup name).getD name := by
    have hfound := List.find?_some h
    exact of_decide_eq_true hfound
  cases hlookup : presetAliases.lookup name with
  | none =>
    rw [hlookup, Option.getD_none] at hname
    exact .inl hname
  | some canonical =>
    rw [hlookup, Option.getD_some] at hname
    obtain rfl := hname
    obtain ⟨before, after, hsplit, _⟩ := List.lookup_eq_some_iff.1 hlookup
    rw [hsplit]
    exact .inr (List.mem_append_right _ (.head _))

theorem allowedTypes_registered (pow2 : ℚ → ℚ) (base max : QuantType) :
    ∀ q ∈ allowedTypes pow2 base max, quantByName pow2 q.name = some q := by
  intro q hq
  exact quantByName_name pow2 (List.mem_of_mem_filter (mem_of_mem_deduplicateQuantMenu hq))

end Menu

/-- `compute_bpw`, over the registry and the parameter counts it looks up. -/
def computeBpw (quantByName : String → Option QuantType) (getNParams : ν → Nat)
    (assignments : List (ν × String)) : Option ℚ := do
  let bits ← assignments.mapM fun p =>
    (quantByName p.2).map fun q => q.bpw * (getNParams p.1 : ℚ)
  let totalParams := (assignments.map fun p => getNParams p.1).sum
  if totalParams = 0 then none else some (bits.sum / totalParams)

theorem computeBpw_eq {quantByName : String → Option QuantType} {getNParams : ν → Nat}
    {names : List ν} {type : ν → QuantType}
    (hq : ∀ n ∈ names, quantByName (type n).name = some (type n))
    (hp : (names.map getNParams).sum ≠ 0) :
    computeBpw quantByName getNParams (names.map fun n => (n, (type n).name)) =
      some ((names.map fun n => (type n).bpw * (getNParams n : ℚ)).sum /
        ((names.map getNParams).sum : Nat)) := by
  have hbits : (names.map fun n => (n, (type n).name)).mapM
      (fun p => (quantByName p.2).map fun q => q.bpw * (getNParams p.1 : ℚ)) =
      some ((names.map fun n => (n, (type n).name)).map
        fun p => (type p.1).bpw * (getNParams p.1 : ℚ)) := by
    apply Lib.mapM_eq_some_map
    intro p hp
    obtain ⟨n, hn, rfl⟩ := List.mem_map.1 hp
    rw [hq n hn, Option.map_some]
  rw [computeBpw, hbits]
  simp only [Option.bind_eq_bind, Option.bind_some, List.map_map, Function.comp_def, if_neg hp]

end ActQuant.Hsic
