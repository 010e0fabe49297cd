import ActQuant.Sampling.Sampler

namespace ActQuant.Sampling
open ActQuant.Lib Floats Sorters

/-! What each sampler does to the flag that says that the tokens are in order. -/

variable [Floats F]

/-- The flag is true only of tokens in order. -/
def Cands.Truthful (cur : Cands F) : Prop := cur.sorted = true → Descending cur.data

/-- Flagged as sorted, and rightly. -/
def Cands.InOrder (cur : Cands F) : Prop := cur.sorted = true ∧ Descending cur.data

/-- Where more tokens are sorted than the short path takes, none has a logit whose bucket number is
no int. -/
def Cands.Sortable (cur : Cands F) : Prop :=
  cur.sorted = false → 128 < cur.size → ∀ t ∈ cur.data, Numbered t.logit

theorem Cands.InOrder.sortable {cur : Cands F} (h : cur.InOrder) : cur.Sortable := by
  intro hs
  rw [h.1] at hs
  cases hs

theorem Cands.Sortable.of_logits {cur cur' : Cands F} (h : cur.Sortable)
    (hflag : cur'.sorted = cur.sorted)
    (hl : cur'.data.map (·.logit) = cur.data.map (·.logit)) : cur'.Sortable := by
  intro hs hlarge t ht
  have hsize : cur'.size = cur.size := by
    simpa [Cands.size] using congrArg List.length hl
  have hmem : t.logit ∈ cur.data.map (·.logit) := hl ▸ List.mem_map_of_mem ht
  obtain ⟨u, hu, heq⟩ := List.mem_map.1 hmem
  exact heq ▸ h (hflag ▸ hs) (hsize ▸ hlarge) u hu

theorem Cands.InOrder.truthful {cur : Cands F} (h : cur.InOrder) : cur.Truthful := fun _ => h.2

theorem truthful_of_unsorted {cur : Cands F} (h : cur.sorted = false) : cur.Truthful := by
  intro hs
  rw [h] at hs
  exact absurd hs Bool.false_ne_true

/-- Leaving out tokens and changing what is not a logit keeps the order. -/
theorem Cands.Truthful.of_logits {cur cur' : Cands F} (h : cur.Truthful)
    (hflag : cur'.sorted = true → cur.sorted = true)
    (hl : (cur'.data.map (·.logit)).Sublist (cur.data.map (·.logit))) : cur'.Truthful :=
  fun hs => (h (hflag hs)).of_logits hl

theorem scaleProbs_logits (sum : F) (data : List (TokenData F)) :
    (scaleProbs sum data).map (·.logit) = data.map (·.logit) := by
  rw [scaleProbs, List.map_map]
  rfl

theorem maskBelow_le [LawfulFloats F] (t : TokenData F) (minL : F) :
    (if t.logit < minL then t.mask else t).logit ≤ t.logit := by
  split
  · exact LawfulFloats.negInf_le _
  · exact le_refl _

/-- Masking the tokens below a logit keeps the order. -/
theorem Descending.maskBelow [LawfulFloats F] {data : List (TokenData F)} (h : Descending data)
    (minL : F) : Descending (data.map fun t => if t.logit < minL then t.mask else t) := by
  rw [Descending, List.pairwise_map]
  refine List.Pairwise.imp ?_ h
  intro a b hle
  by_cases hb : b.logit < minL
  · rw [if_pos hb]
    exact LawfulFloats.negInf_le _
  · have ha : ¬ a.logit < minL := fun ha => hb (lt_of_le_of_lt hle ha)
    rw [if_neg ha, if_neg hb]
    exact hle

/-- In order, the first token is kept and all others are masked. -/
theorem keepHighest_eq {kept : TokenData F} {rest : List (TokenData F)}
    (h : ∀ t ∈ rest, t.logit ≤ kept.logit) (before passed : List (TokenData F)) :
    keepHighest before kept passed rest =
      before ++ kept :: (passed ++ rest.map TokenData.mask) := by
  induction rest generalizing passed with
  | nil => rw [keepHighest, List.map_nil, List.append_nil]
  | cons t rest ih =>
    rw [keepHighest, if_neg (not_lt_of_ge (h t (.head _))),
      ih (fun t' ht' => h t' (.tail _ ht')), List.map_cons, List.append_assoc,
      List.singleton_append]

theorem Descending.keepHighest [LawfulFloats F] {first : TokenData F} {rest : List (TokenData F)}
    (h : Descending (first :: rest)) : Descending (keepHighest [] first [] rest) := by
  rw [keepHighest_eq (List.pairwise_cons.1 h).1, List.nil_append, List.nil_append]
  refine List.pairwise_cons.2 ⟨?_, ?_⟩
  · intro t ht
    obtain ⟨t', _, rfl⟩ := List.mem_map.1 ht
    exact LawfulFloats.negInf_le _
  · rw [List.pairwise_map]
    exact List.pairwise_of_forall fun _ _ => le_refl _

theorem tempImpl_sorted (cur : Cands F) (temp : F) : (tempImpl cur temp).sorted = cur.sorted := by
  rw [tempImpl]
  split
  · split <;> rfl
  · rfl

theorem tempImpl_descending [LawfulFloats F] {cur : Cands F} (h : Descending cur.data) (temp : F) :
    Descending (tempImpl cur temp).data := by
  rw [tempImpl]
  split
  case isTrue =>
    split
    case h_1 => exact h
    case h_2 first rest heq =>
      rw [heq] at h
      exact h.keepHighest
  case isFalse ht =>
    rw [Descending, List.pairwise_map]
    refine List.Pairwise.imp ?_ h
    intro a b hle
    exact LawfulFloats.div_le _ _ _ (lt_of_not_ge ht) hle

theorem tempApply_truthful [LawfulFloats F] {cur : Cands F} (h : cur.Truthful) (temp : F) :
    (tempApply temp cur).Truthful := by
  intro hs
  rw [tempApply, tempImpl_sorted] at hs
  exact tempImpl_descending (h hs) temp

section
variable [Random F R W]

theorem Dist.apply_truthful {cur : Cands F} (h : cur.Truthful) (ctx : Dist R) :
    (ctx.apply cur).2.Truthful := by
  rw [Dist.apply]
  split
  case h_1 hdata => exact h
  case h_2 t hdata =>
    exact fun _ => descending_of_length_le_one (Nat.le_refl 1)
  case h_3 =>
    refine h.of_logits id ?_
    simp only
    rw [scaleProbs_logits, List.map_map]
    exact List.Sublist.refl _

end

section
variable [Sorters F]

theorem typicalApply_truthful {cur : Cands F} (h : cur.Truthful)
    (hr : typicalApply p minKeep cur = some cur') : cur'.Truthful := by
  rw [typicalApply] at hr
  split at hr
  case isTrue =>
    cases hr
    exact h
  case isFalse =>
    obtain ⟨cur₁, _, rfl⟩ := Option.map_eq_some_iff.1 hr
    exact truthful_of_unsorted rfl

theorem softmaxImpl_eq {cur : Cands F} (h : softmaxImpl cur doSort = some cur') :
    ∃ cur₁ : Cands F,
      cur₁ = (if doSort ∧ ¬ cur.sorted then partialSortInplace cur cur.size else cur) ∧
      cur' = { cur₁ with data := setProbs (maxLogit cur₁.sorted cur₁.data) cur₁.data } ∧
      cur.data ≠ [] := by
  rw [softmaxImpl] at h
  split at h
  case isTrue => exact absurd h (by simp)
  case isFalse hne => exact ⟨_, rfl, (Option.some.inj h).symm, hne⟩

theorem softmaxImpl_unsorted {cur : Cands F} (h : softmaxImpl cur false = some cur') :
    cur'.sorted = cur.sorted ∧ cur'.data.map (·.logit) = cur.data.map (·.logit) ∧
      0 < cur'.size := by
  obtain ⟨cur₁, heq, rfl, hne⟩ := softmaxImpl_eq h
  rw [if_neg (by simp)] at heq
  subst heq
  refine ⟨rfl, setProbs_logits _ _, ?_⟩
  rw [Cands.size, setProbs_length]
  exact List.length_pos_iff.2 hne

variable [LawfulSorters F] [LawfulFloats F]

theorem softmaxImpl_inOrder {cur : Cands F} (h : cur.Truthful) (hsort : cur.Sortable)
    (hs : softmaxImpl cur true = some cur') : cur'.InOrder := by
  obtain ⟨cur₁, heq, rfl, -⟩ := softmaxImpl_eq hs
  have hcur₁ : cur₁.InOrder := by
    cases hflag : cur.sorted with
    | true =>
      rw [if_neg (by simp [hflag])] at heq
      subst heq
      exact ⟨hflag, h hflag⟩
    | false =>
      rw [if_pos (by simp [hflag])] at heq
      subst heq
      exact ⟨partialSortInplace_sorted _ _,
        partialSortInplace_descending (hsort hflag) (Nat.le_refl _)⟩
  exact ⟨hcur₁.1, hcur₁.2.setProbs _⟩

theorem topKImpl_truthful {cur : Cands F} (h : cur.Truthful) {k : Int}
    (hsort : 128 < k → cur.Sortable) : (topKImpl cur k).Truthful := by
  rw [topKImpl]
  split
  case isTrue => exact h
  case isFalse =>
    split
    case isTrue hs => exact fun _ => (h hs).take _
    case isFalse hs =>
      intro _
      apply (partialSortInplace_descending _ (Nat.min_le_right _ _)).take
      exact fun hlarge => hsort (by omega) (Bool.eq_false_of_not_eq_true hs) (by omega)

theorem topKImpl_inOrder {cur : Cands F} (h : cur.InOrder) (k : Int) :
    (topKImpl cur k).InOrder := by
  refine ⟨?_, topKImpl_truthful h.truthful (fun _ => h.sortable) ?_⟩
  all_goals
    rw [topKImpl]
    split
    · exact h.1
    · simp only [h.1, if_true]

/-- The tokens that top-p takes are in order. -/
theorem topPLoop_descending {cur : Cands F} {pdata : List (TokenData F)}
    (hnum : cur.sorted = false → ∀ t ∈ cur.data, Numbered t.logit)
    (hk : k ≤ cur.size) (hi : i + n = cur.size) (hik : i < k ∨ n = 0 ∧ i ≤ k)
    (hsorted : cur.sorted = true → k = cur.size) (hd : Descending (pdata.take k)) :
    Descending ((topPLoop p minKeep cur n i k cumSum pdata).2.take
      (topPLoop p minKeep cur n i k cumSum pdata).1) := by
  induction n generalizing i k cumSum pdata with
  | zero =>
    rw [topPLoop]
    have htake := hd.take i
    rw [List.take_take, Nat.min_eq_left (by omega)] at htake
    exact htake
  | succ n ih =>
    have hlt : i < k := hik.resolve_right (fun h => Nat.succ_ne_zero n h.1)
    rw [topPLoop]
    split
    case isTrue =>
      have htake := hd.take (i + 1)
      rw [List.take_take, Nat.min_eq_left hlt] at htake
      exact htake
    case isFalse =>
      split
      case isTrue hgrow =>
        apply ih (Nat.le_refl _) (by omega) (by omega) (fun _ => rfl)
        exact partialSortBuckets_descending (hnum (Bool.eq_false_of_not_eq_true hgrow.1)) (by omega)
          (Nat.le_refl _)
      case isFalse hgrow =>
        refine ih hk (by omega) ?_ hsorted hd
        by_cases hs : cur.sorted = true
        · have := hsorted hs
          omega
        · have hne : i + 1 ≠ k := fun heq => hgrow ⟨hs, heq⟩
          exact .inl (by omega)

theorem topPApply_truthful {cur : Cands F} (h : cur.Truthful) (hsort : cur.Sortable)
    (hr : topPApply p minKeep cur = some cur') : cur'.Truthful := by
  rw [topPApply] at hr
  split at hr
  case isTrue =>
    cases hr
    exact h
  case isFalse =>
    obtain ⟨cur₁, hsoft, rfl⟩ := Option.map_eq_some_iff.1 hr
    obtain ⟨hflag, hlogits, hpos⟩ := softmaxImpl_unsorted hsoft
    have h₁ : cur₁.Truthful := h.of_logits (fun hs => hflag ▸ hs) (by rw [hlogits])
    have hsort₁ := hsort.of_logits hflag hlogits
    intro _
    simp only
    by_cases hlarge : ¬ cur₁.sorted ∧ 1024 < cur₁.size
    · have hcond : ¬ (¬ cur₁.sorted ∧ ¬ (¬ cur₁.sorted ∧ 1024 < cur₁.size)) :=
        fun hc => hc.2 hlarge
      have hk : min 256 cur₁.size ≤ cur₁.size := Nat.min_le_right _ _
      have hk0 : 0 < min 256 cur₁.size := by omega
      simp only [if_pos hlarge, if_neg hcond]
      have hnum := hsort₁ (Bool.eq_false_of_not_eq_true hlarge.1) (by omega)
      exact topPLoop_descending (fun _ => hnum) hk (Nat.zero_add _) (.inl hk0)
        (fun hs => absurd hs hlarge.1) (partialSortBuckets_descending hnum hk0 hk)
    · simp only [if_neg hlarge]
      by_cases hs : cur₁.sorted
      · have hcond : ¬ (¬ cur₁.sorted ∧ ¬ (¬ cur₁.sorted ∧ 1024 < cur₁.size)) :=
          fun hc => hc.1 hs
        simp only [if_neg hcond]
        exact topPLoop_descending (fun hf => by simp [hs] at hf) (Nat.le_refl _) (Nat.zero_add _)
          (.inl hpos) (fun _ => rfl) ((h₁ hs).take _)
      · have hcond : ¬ cur₁.sorted ∧ ¬ (¬ cur₁.sorted ∧ 1024 < cur₁.size) := ⟨hs, hlarge⟩
        have hsize := partialSortInplace_size (Nat.le_refl cur₁.size)
        simp only [if_pos hcond]
        rw [← hsize] at hpos
        have hnum := hsort₁ (Bool.eq_false_of_not_eq_true hs)
        exact topPLoop_descending (fun hf => by simp [partialSortInplace_sorted] at hf)
          (Nat.le_of_eq hsize.symm) (Nat.zero_add _) (.inl (hsize ▸ hpos)) (fun _ => hsize.symm)
          ((partialSortInplace_descending hnum (Nat.le_refl _)).take _)

theorem minPApply_truthful {cur : Cands F} (h : cur.Truthful) (hsort : cur.Sortable) (p : F)
    (minKeep : Nat) : (minPApply p minKeep cur).Truthful := by
  rw [minPApply]
  split
  case isTrue => exact h
  case isFalse =>
    simp only
    split
    case isTrue hc => exact truthful_of_unsorted (Bool.eq_false_of_not_eq_true hc.1)
    case isFalse =>
      have hsorted : (if cur.sorted then cur else partialSortInplace cur cur.size).Truthful := by
        split
        case isTrue => exact h
        case isFalse hs =>
          exact fun _ => partialSortInplace_descending
            (hsort (Bool.eq_false_of_not_eq_true hs)) (Nat.le_refl _)
      split
      case h_1 => exact hsorted
      case h_2 => exact fun hs => (hsorted hs).take _

theorem tempExtApply_truthful {cur : Cands F} (h : cur.Truthful) (hsort : cur.Sortable)
    (hr : tempExtApply temp delta exponent cur = some cur') : cur'.Truthful := by
  rw [tempExtApply] at hr
  split at hr
  case isTrue =>
    split at hr
    case isTrue =>
      cases hr
      exact h
    case isFalse =>
      obtain ⟨cur₁, hsoft, rfl⟩ := Option.map_eq_some_iff.1 hr
      intro _
      exact (tempImpl_descending (softmaxImpl_inOrder h hsort hsoft).2 _).setProbs _
  case isFalse =>
    cases hr
    exact tempApply_truthful h temp

theorem topNSigmaApply_truthful {cur : Cands F} (h : cur.Truthful) (hsort : cur.Sortable)
    (hr : topNSigmaApply n cur = some cur') : cur'.Truthful := by
  rw [topNSigmaApply] at hr
  split at hr
  case isTrue =>
    cases hr
    exact h
  case isFalse =>
    refine (softmaxImpl_inOrder (fun hs => ?_) ?_ hr).truthful
    · exact (h hs).maskBelow _
    intro hs hlarge t ht
    rw [Cands.size, List.length_map] at hlarge
    obtain ⟨u, hu, rfl⟩ := List.mem_map.1 ht
    exact (hsort hs hlarge u hu).of_le (maskBelow_le u _)

section
variable [Random F R W]

theorem Xtc.apply_truthful {cur : Cands F} {ctx : Xtc F R} (h : cur.Truthful)
    (hsort : cur.Sortable)
    (hr : ctx.apply cur = some r) : r.2.Truthful := by
  rw [Xtc.apply] at hr
  split at hr
  case isTrue =>
    cases hr
    exact h
  case isFalse =>
    simp only at hr
    split at hr
    case isTrue =>
      cases hr
      exact h
    case isFalse =>
      obtain ⟨cur₁, hsoft, rfl⟩ := Option.map_eq_some_iff.1 hr
      have h₁ := softmaxImpl_inOrder h hsort hsoft
      split
      case isTrue => exact fun _ => h₁.2.sublist (List.drop_sublist _ _)
      case isFalse => exact h₁.truthful

theorem Mirostat.apply_truthful {cur : Cands F} {ctx : Mirostat F R} (h : cur.Truthful)
    (hsort : cur.Sortable)
    (hr : ctx.apply cur = some r) : r.2.Truthful := by
  rw [Mirostat.apply] at hr
  obtain ⟨cur₁, hsoft, hr⟩ := Option.bind_eq_some_iff.1 hr
  obtain ⟨cur₂, hsoft₂, rfl⟩ := Option.map_eq_some_iff.1 hr
  have h₁ := topKImpl_inOrder (softmaxImpl_inOrder h hsort hsoft)
  have h₂ := softmaxImpl_inOrder (h₁ _).truthful (h₁ _).sortable hsoft₂
  exact fun _ => h₂.2

theorem MirostatV2.apply_truthful {cur : Cands F} {ctx : MirostatV2 F R} (h : cur.Truthful)
    (hsort : cur.Sortable)
    (hr : ctx.apply cur = some r) : r.2.Truthful := by
  rw [MirostatV2.apply] at hr
  obtain ⟨cur₁, hsoft, hr⟩ := Option.bind_eq_some_iff.1 hr
  obtain ⟨cur₂, hsoft₂, rfl⟩ := Option.map_eq_some_iff.1 hr
  have h₁ := softmaxImpl_inOrder h hsort hsoft
  have h₂ := softmaxImpl_inOrder (fun _ => h₁.2.take _) (fun hs => by simp [h₁.1] at hs) hsoft₂
  exact fun _ => h₂.2

end

end

theorem Penalties.apply_truthful {cur : Cands F} (h : cur.Truthful) (ctx : Penalties F) :
    (ctx.apply cur).Truthful := by
  rw [Penalties.apply]
  split
  case isTrue => exact truthful_of_unsorted rfl
  case isFalse => exact h

theorem Dry.apply_truthful {cur : Cands F} {ctx : Dry F} (h : cur.Truthful)
    (hr : ctx.apply cur = some r) : r.2.Truthful := by
  rw [Dry.apply] at hr
  split at hr
  case isTrue =>
    cases hr
    exact h
  case isFalse =>
    simp only at hr
    split at hr
    case isTrue =>
      cases hr
      exact h
    case isFalse =>
      split at hr
      case isTrue => exact absurd hr (by simp)
      case isFalse =>
        obtain ⟨toks, _, rfl⟩ := Option.map_eq_some_iff.1 hr
        split
        case isTrue => exact h
        case isFalse => exact truthful_of_unsorted rfl

/-! Three samplers edit logits and leave the flag as it is. -/

theorem applyDirect_eq {data : List (TokenData F)} {biases : List (Int × F)}
    (h : ∀ lb ∈ biases, ∀ t ∈ data, t.id ≠ lb.1) : applyDirect data biases = (data, biases) := by
  induction biases with
  | nil => rfl
  | cons lb biases ih =>
    have hnone : ¬ (0 ≤ lb.1 ∧ (data[lb.1.toNat]?.map (·.id)) = some lb.1) := by
      rintro ⟨-, hid⟩
      obtain ⟨t, ht, hid⟩ := Option.map_eq_some_iff.1 hid
      exact h lb (.head _) t (List.mem_of_getElem? ht) hid
    rw [applyDirect, if_neg hnone, ih fun lb' hlb' => h lb' (.tail _ hlb')]

/-- Biases of tokens that are not among the candidates change nothing. -/
theorem logitBiasApply_eq {cur : Cands F} {biases : List (Int × F)}
    (h : ∀ lb ∈ biases, ∀ t ∈ cur.data, t.id ≠ lb.1) : logitBiasApply biases cur = cur := by
  have hmap : cur.data.map (searchBias biases) = cur.data.map id := by
    apply List.map_congr_left
    intro t ht
    have hnone : biases.find? (fun lb => t.id = lb.1) = none := by
      rw [List.find?_eq_none]
      intro lb hlb heq
      exact h lb hlb t ht (of_decide_eq_true heq)
    rw [searchBias, hnone]
    rfl
  rw [logitBiasApply, applyDirect_eq h]
  simp only [hmap, List.map_id]

theorem logitBiasApply_truthful {cur : Cands F} (h : cur.Truthful) {biases : List (Int × F)}
    (hc : cur.sorted = true → ∀ lb ∈ biases, ∀ t ∈ cur.data, t.id ≠ lb.1) :
    (logitBiasApply biases cur).Truthful := by
  by_cases hs : cur.sorted = true
  · rw [logitBiasApply_eq (hc hs)]
    exact h
  · exact truthful_of_unsorted (Bool.eq_false_of_not_eq_true hs)

theorem GrammarSampler.apply_truthful {cur : Cands F} {ctx : GrammarSampler} (h : cur.Truthful)
    (hc : cur.sorted = true → ∀ g ∈ ctx.grammar, ∀ positions,
      g.masked ctx.vocab fuel (cur.data.map (·.id)) = some positions → positions = [])
    (hr : ctx.apply fuel cur = some cur') : cur'.Truthful := by
  rw [GrammarSampler.apply] at hr
  split at hr
  case h_1 =>
    cases hr
    exact h
  case h_2 g hg =>
    obtain ⟨positions, hpos, rfl⟩ := Option.map_eq_some_iff.1 hr
    intro hs
    rw [hc hs g hg positions hpos]
    exact h hs

end ActQuant.Sampling
