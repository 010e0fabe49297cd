import ActQuant.Grammar.ObjectRule

namespace ActQuant.Grammar
open Lib ActQuant.Grammar.Parser

/-! The text of a repetition. -/

/-- `std::numeric_limits<int>::max()`, which stands for no bound. -/
def maxInt : Nat := 2 ^ 31 - 1

/-- `has_max`, with the bound. -/
def upTo (maxItems : Nat) : Option Nat := if maxItems = maxInt then none else some maxItems

/-- `build_repetition` without a separator. -/
def plainRepetition (itemRule : Text) (minItems maxItems : Nat) : Text :=
  if maxItems = 0 then []
  else if minItems = 0 ∧ maxItems = 1 then itemRule ++ ascii "?"
  else if minItems = 1 ∧ upTo maxItems = none then itemRule ++ ascii "+"
  else if minItems = 0 ∧ upTo maxItems = none then itemRule ++ ascii "*"
  else itemRule ++ rangeText minItems (upTo maxItems)

/-- `build_repetition`. -/
def buildRepetition (itemRule : Text) (minItems maxItems : Nat) (separatorRule : Text) : Text :=
  if maxItems = 0 then []
  else if minItems = 0 ∧ maxItems = 1 then itemRule ++ ascii "?"
  else if separatorRule = [] then plainRepetition itemRule minItems maxItems
  else
    let result := itemRule ++ (ascii " " ++
      plainRepetition (ascii "(" ++ (separatorRule ++ (ascii " " ++ (itemRule ++ ascii ")"))))
        (if minItems = 0 then 0 else minItems - 1)
        (if upTo maxItems = none then maxItems else maxItems - 1))
    if minItems = 0 then ascii "(" ++ (result ++ ascii ")?") else result

theorem plainRepetition_reads (h : IsItem M t l) (hle : minItems ≤ maxItems)
    (hint : maxItems ≤ maxInt) (hmax : maxItems ≠ 0) :
    IsItem M (plainRepetition t minItems maxItems) (powers l minItems (upTo maxItems)) := by
  have hbound : ∀ b ∈ upTo maxItems, b = maxItems := by
    intro b hb
    rw [upTo] at hb
    split at hb
    · cases hb
    · exact (Option.some.inj hb).symm
  rw [plainRepetition, if_neg hmax]
  split
  case isTrue hopt =>
    obtain ⟨rfl, rfl⟩ := hopt
    exact h.operate isOperator_optional (fun b _ => Nat.zero_le b) (by decide)
  split
  case isTrue hplus =>
    rw [hplus.1, hplus.2]
    exact h.operate isOperator_plus (fun b hb => nomatch hb) (by decide)
  split
  case isTrue hstar =>
    rw [hstar.1, hstar.2]
    exact h.operate isOperator_star (fun b hb => nomatch hb) (by decide)
  case isFalse =>
    have hfits : Parser.Fits minItems (upTo maxItems) := by
      rw [maxInt] at hint
      refine ⟨by omega, fun b hb => ?_⟩
      rw [hbound b hb]
      omega
    refine h.operate (isOperator_range hfits) (fun b hb => (hbound b hb).symm ▸ hle) ?_
    intro hzero
    exact hmax (hbound 0 hzero).symm

/-- As many items as the bounds say, with a separator between neighbours. -/
def repeated (sep l : Language Nat) (m : Nat) (n : Option Nat) : Language Nat :=
  {w | ∃ k, InRange m n k ∧ w ∈ joined sep (List.replicate k l)}

theorem powers_zero (l : Language Nat) : powers l 0 (some 0) = 1 := by
  ext w
  constructor
  · rintro ⟨k, ⟨_, hk⟩, hw⟩
    obtain rfl := Nat.le_zero.1 (hk 0 rfl)
    exact hw
  · exact fun hw => ⟨0, ⟨Nat.le_refl 0, fun b _ => Nat.zero_le b⟩, hw⟩

theorem repeated_zero (sep l : Language Nat) : repeated sep l 0 (some 0) = 1 := by
  ext w
  constructor
  · rintro ⟨k, ⟨_, hk⟩, hw⟩
    obtain rfl := Nat.le_zero.1 (hk 0 rfl)
    exact hw
  · exact fun hw => ⟨0, ⟨Nat.le_refl 0, fun b _ => Nat.zero_le b⟩, hw⟩

/-- A first item, and the others each behind a separator. -/
theorem repeated_succ (sep l : Language Nat) (m : Nat) (n : Option Nat) :
    repeated sep l (m + 1) (n.map (· + 1)) = l * powers (sep * l) m n := by
  ext w
  rw [Language.mem_mul]
  constructor
  · rintro ⟨k, ⟨hk, hk'⟩, hw⟩
    obtain ⟨k, rfl⟩ : ∃ k', k = k' + 1 := ⟨k - 1, by omega⟩
    rw [joined_replicate] at hw
    obtain ⟨u, hu, v, hv, rfl⟩ := hw
    refine ⟨u, hu, v, ⟨k, ⟨Nat.le_of_succ_le_succ hk, fun b hb => ?_⟩, hv⟩, rfl⟩
    exact Nat.le_of_succ_le_succ (hk' (b + 1) (Option.mem_map_of_mem _ hb))
  · rintro ⟨u, hu, v, ⟨k, ⟨hk, hk'⟩, hv⟩, rfl⟩
    refine ⟨k + 1, ⟨Nat.succ_le_succ hk, fun b hb => ?_⟩, ?_⟩
    · obtain ⟨b', hb', rfl⟩ := Option.mem_map.1 hb
      exact Nat.succ_le_succ (hk' b' hb')
    · rw [joined_replicate]
      exact Language.append_mem_mul hu hv

/-- No item, or some. -/
theorem repeated_optional (sep l : Language Nat) (n : Option Nat) :
    repeated sep l 0 (n.map (· + 1)) = 1 + repeated sep l 1 (n.map (· + 1)) := by
  ext w
  rw [Language.mem_add]
  constructor
  · rintro ⟨k, ⟨_, hk⟩, hw⟩
    cases k with
    | zero => exact .inl hw
    | succ k => exact .inr ⟨k + 1, ⟨Nat.succ_le_succ (Nat.zero_le k), hk⟩, hw⟩
  · rintro (hw | ⟨k, ⟨_, hk⟩, hw⟩)
    · exact ⟨0, ⟨Nat.le_refl 0, fun b _ => Nat.zero_le b⟩, hw⟩
    · exact ⟨k, ⟨Nat.zero_le k, hk⟩, hw⟩

section Between
variable {before after itemRule separatorRule : Text}

theorem isItem_separated (hitem : IsItem M itemRule l) (hsep : IsSequence M separatorRule s) :
    IsItem M (ascii "(" ++ (separatorRule ++ (ascii " " ++ (itemRule ++ ascii ")")))) (s * l) := by
  have hgroup := (hsep.append hitem.sequence 0).alternates.group 0 0
  have htext : ascii "(" ++ (separatorRule ++ (ascii " " ++ (itemRule ++ ascii ")"))) =
      groupText 0 (separatorRule ++ (List.replicate (0 + 1) (byte ' ') ++ itemRule)) 0 := by
    simp [ascii, groupText]
  rw [htext]
  exact hgroup

/-- A repetition between two texts, whatever becomes of it. -/
theorem buildRepetition_reads (hbefore : IsSequence M before l₁) (hafter : IsSequence M after l₂)
    (hitem : IsItem M itemRule l) (hsep : IsSequence M separatorRule s)
    (hne : separatorRule ≠ []) (hle : minItems ≤ maxItems) (hint : maxItems ≤ maxInt) :
    IsSequence M
      (before ++ (ascii " " ++ (buildRepetition itemRule minItems maxItems separatorRule ++
        (ascii " " ++ after))))
      (l₁ * (repeated s l minItems (upTo maxItems) * l₂)) := by
  have hgroup := isItem_separated hitem hsep
  have hwrap {t : Text} {l : Language Nat} (h : IsSequence M t l) :=
    hbefore.append (h.append hafter 0) 0
  rw [buildRepetition]
  by_cases hzero : maxItems = 0
  · obtain rfl : minItems = 0 := by omega
    subst hzero
    have hnone : upTo 0 = some 0 := by decide
    rw [if_pos rfl, hnone, repeated_zero, one_mul]
    exact hbefore.append hafter 1
  rw [if_neg hzero]
  by_cases hone : minItems = 0 ∧ maxItems = 1
  · obtain ⟨rfl, rfl⟩ := hone
    have hmap : upTo 1 = (some 0).map (· + 1) := by decide
    rw [if_pos ⟨rfl, rfl⟩, hmap, repeated_optional, repeated_succ (m := 0), powers_zero, mul_one]
    exact hwrap hitem.optional.sequence
  rw [if_neg hone, if_neg hne]
  dsimp only
  generalize hmax' : (if upTo maxItems = none then maxItems else maxItems - 1) = max'
  obtain ⟨hupTo, hint', hpos⟩ : upTo maxItems = (upTo max').map (· + 1) ∧ max' ≤ maxInt ∧
      (max' = 0 → maxItems = 1) := by
    rw [← hmax']
    split
    case isTrue hnone => exact ⟨by rw [hnone]; rfl, hint, fun h => absurd h hzero⟩
    case isFalse hsome =>
      have hlt : maxItems ≠ maxInt := fun h => hsome (if_pos h)
      refine ⟨?_, by omega, by omega⟩
      rw [upTo, if_neg hlt, upTo, if_neg (by omega)]
      exact congrArg some (Nat.sub_add_cancel (Nat.one_le_iff_ne_zero.2 hzero)).symm
  have hmin : (if minItems = 0 then 0 else minItems - 1) = minItems - 1 := by
    split <;> omega
  have hle' : minItems - 1 ≤ max' := by
    rw [← hmax']
    split <;> omega
  rw [hupTo, hmin]
  have hrest (hmax : max' ≠ 0) :=
    IsSequence.cons hitem (plainRepetition_reads hgroup hle' hint' hmax).sequence
  by_cases hmin' : minItems = 0
  · have hmax : max' ≠ 0 := fun h => hone ⟨hmin', hpos h⟩
    subst hmin'
    have hopt := ((hrest hmax).alternates.group 0 0).optional
    rw [repeated_optional, repeated_succ (m := 0), if_pos rfl]
    have hall := hwrap hopt.sequence
    simpa [ascii, groupText] using hall
  · obtain ⟨m, rfl⟩ : ∃ m, minItems = m + 1 := ⟨minItems - 1, by omega⟩
    rw [repeated_succ, if_neg hmin']
    by_cases hmax : max' = 0
    · -- one item, and two blanks behind it
      obtain rfl : m = 0 := by omega
      subst hmax
      have hnone : upTo 0 = some 0 := by decide
      rw [hnone, powers_zero, mul_one, plainRepetition, if_pos rfl]
      have hall := hbefore.append (hitem.sequence.append hafter 1) 0
      simpa [ascii] using hall
    · have hall := hwrap (hrest hmax)
      simpa [ascii] using hall

end Between

end ActQuant.Grammar
