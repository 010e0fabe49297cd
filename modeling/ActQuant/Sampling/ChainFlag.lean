import ActQuant.Sampling.Truthful

namespace ActQuant.Sampling
open ActQuant.Lib Floats Sorters

/-! Infill sampling keeps the order as long as it merges no end-of-generation token away. -/

theorem forall₂_modify {R : α → β → Prop} {l : List α} {l' : List β} (h : List.Forall₂ R l l')
    (hi : ∀ a b, l'[i]? = some b → R a b → R a (f b)) : List.Forall₂ R l (l'.modify i f) := by
  induction h generalizing i with
  | nil =>
    rw [List.modify_nil]
    exact .nil
  | cons hR _ ih =>
    cases i with
    | zero => exact .cons (hi _ _ rfl hR) ‹_›
    | succ i => exact .cons hR (ih fun a b hb => hi a b hb)

section
variable [Floats F] {vocab : InfillVocab}

/-- The step merges an end-of-generation token into another one. -/
def TakesEog (vocab : InfillVocab) (data : List (TokenData F)) (i : Nat × Nat) : Prop :=
  ∃ t0 t1, data[i.1]? = some t0 ∧ data[i.2]? = some t1 ∧ t0.logit ≠ negInf ∧ t1.logit ≠ negInf ∧
    i.1 ≠ i.2 ∧ vocab.tokenToPiece t0.id ≠ [] ∧
    (vocab.tokenToPiece t0.id).isPrefixOf (vocab.tokenToPiece t1.id) ∧
    vocab.isEog (if t0.p < t1.p then t0 else t1).id

/-- No step of combining does. -/
def SparesEog (vocab : InfillVocab) : List (Nat × Nat) → List (TokenData F) → Prop
  | [], _ => True
  | i :: rest, data =>
    ¬ TakesEog vocab data i ∧
      ∀ data', combineStep vocab data i = some data' → SparesEog vocab rest data'

/-- A candidate before and after combining: only the logit of a text token may have changed, and
that one has nothing left. -/
def Merged (vocab : InfillVocab) (t0 t : TokenData F) : Prop :=
  t.logit = t0.logit ∨ t.logit = negInf ∧ t.p = ofRat 0 ∧ vocab.isEog t.id = false

theorem forall₂_merged_self (data : List (TokenData F)) :
    List.Forall₂ (Merged vocab) data data :=
  List.forall₂_same.2 fun _ _ => .inl rfl

theorem combineStep_merged {data0 data : List (TokenData F)}
    (h : List.Forall₂ (Merged vocab) data0 data) (hspare : ¬ TakesEog vocab data i)
    (hr : combineStep vocab data i = some data') : List.Forall₂ (Merged vocab) data0 data' := by
  rw [combineStep] at hr
  split at hr
  case h_2 =>
    cases hr
    exact h
  case h_1 t0 t1 ht0 ht1 =>
    split at hr
    case isTrue =>
      cases hr
      exact h
    case isFalse hinf =>
      rw [not_or, not_or] at hinf
      obtain ⟨hl0, hne, hl1⟩ := hinf
      simp only at hr
      split at hr
      case isTrue => exact absurd hr (by simp)
      case isFalse =>
        split at hr
        case isFalse =>
          cases hr
          exact h
        case isTrue hpre =>
          have htext : vocab.isEog (if t0.p < t1.p then t0 else t1).id = false := by
            refine Bool.eq_false_of_not_eq_true fun heog => hspare ?_
            exact ⟨t0, t1, ht0, ht1, hl0, hl1, hne, hpre.1, hpre.2, heog⟩
          cases hr
          -- the token that takes the other's probability was not merged before
          have hdst : ∀ a b : TokenData F, data[if t0.p < t1.p then i.2 else i.1]? = some b →
              Merged vocab a b → ∀ p, Merged vocab a { b with p := p } := by
            intro a b hb hab p
            rcases hab with hab | hab
            · exact .inl hab
            · split at hb
              · rw [ht1] at hb
                cases hb
                exact absurd hab.1 hl1
              · rw [ht0] at hb
                cases hb
                exact absurd hab.1 hl0
          refine forall₂_modify (forall₂_modify h fun a b hb hab => hdst a b hb hab _) ?_
          intro a b hb _
          refine .inr ⟨rfl, rfl, ?_⟩
          have hsrc : b.id = (if t0.p < t1.p then t0 else t1).id := by
            split at hb
            case isTrue hlt =>
              rw [List.getElem?_modify_ne _ _ (Ne.symm hne), ht0] at hb
              rw [if_pos hlt, Option.some.inj hb]
            case isFalse hlt =>
              rw [List.getElem?_modify_ne _ _ hne, ht1] at hb
              rw [if_neg hlt, Option.some.inj hb]
          rw [← htext, ← hsrc]
          rfl

theorem combine_merged {data0 data : List (TokenData F)}
    (h : List.Forall₂ (Merged vocab) data0 data) (hspare : SparesEog vocab is data)
    (hr : is.foldlM (combineStep vocab) data = some data') :
    List.Forall₂ (Merged vocab) data0 data' := by
  induction is generalizing data with
  | nil =>
    cases hr
    exact h
  | cons i is ih =>
    rw [List.foldlM_cons] at hr
    obtain ⟨data₁, hstep, hr⟩ := Option.bind_eq_some_iff.1 hr
    exact ih (combineStep_merged h hspare.1 hstep) (hspare.2 data₁ hstep) hr

/-- What is kept after combining has the logits it had before. -/
theorem kept_logits [LawfulFloats F] {data0 data : List (TokenData F)}
    (h : List.Forall₂ (Merged vocab) data0 data) :
    ((data.filter fun t => vocab.isEog t.id ∨ ofRat (1 / 5) ≤ t.p).map (·.logit)).Sublist
      (data0.map (·.logit)) := by
  induction h with
  | nil => exact List.Sublist.refl _
  | @cons t0 t data0 data hm _ ih =>
    by_cases hkeep : vocab.isEog t.id ∨ ofRat (1 / 5) ≤ t.p
    · have hlogit : t.logit = t0.logit := by
        rcases hm with hm | ⟨-, hp, htext⟩
        · exact hm
        · rw [htext, hp] at hkeep
          rcases hkeep with hkeep | hkeep
          · exact absurd hkeep Bool.false_ne_true
          · exact absurd LawfulFloats.thold_pos (not_lt_of_ge hkeep)
      rw [List.filter_cons, if_pos (decide_eq_true hkeep), List.map_cons, List.map_cons, hlogit]
      exact ih.cons_cons _
    · rw [List.filter_cons, if_neg (by rwa [decide_eq_true_eq]), List.map_cons]
      exact ih.cons _

/-- The candidates that infill sampling starts from allow it to keep the order. -/
def InfillKeeps [Sorters F] (vocab : InfillVocab) (cur : Cands F) : Prop :=
  ∀ cur', softmaxImpl cur true = some cur' →
    eogLikely vocab cur' = true ∨ SparesEog vocab (tokenPairs cur'.size) cur'.data

theorem infillApply_truthful [Sorters F] [LawfulSorters F] [LawfulFloats F] {cur : Cands F}
    (h : cur.Truthful) (hsort : cur.Sortable) (hc : InfillKeeps vocab cur)
    (hr : infillApply vocab cur = some cur') :
    cur'.Truthful := by
  rw [infillApply] at hr
  obtain ⟨cur₁, hsoft, hr⟩ := Option.bind_eq_some_iff.1 hr
  have h₁ := (softmaxImpl_inOrder h hsort hsoft).2
  simp only at hr
  split at hr
  case isTrue =>
    cases hr
    intro _
    refine h₁.of_logits ?_
    rw [scaleProbs_logits]
    exact List.filter_sublist.map _
  case isFalse hlikely =>
    have hspare := (hc cur₁ hsoft).resolve_left hlikely
    obtain ⟨data, hcombine, rfl⟩ := Option.map_eq_some_iff.1 hr
    have hkept := kept_logits (combine_merged (forall₂_merged_self cur₁.data) hspare hcombine)
    split
    case isTrue =>
      intro _
      refine descending_of_length_le_one ?_
      rw [List.length_map]
      exact List.length_take_le 1 _
    case isFalse =>
      intro _
      refine h₁.of_logits (List.Sublist.trans ?_ hkept)
      rw [scaleProbs_logits]
      refine (List.filter_sublist.map _).trans ?_
      rw [scaleProbs_logits]

end

/-! ### The flag along a chain -/

/-- The flag is truthful, so that the maximum read by it is the highest logit. -/
def Cands.FlagRight [Floats F] (cur : Cands F) : Prop :=
  cur.Truthful ∧ maxLogit cur.sorted cur.data = maxLogit false cur.data

theorem Cands.Truthful.flagRight [Floats F] {cur : Cands F} (h : cur.Truthful) :
    cur.FlagRight := by
  refine ⟨h, ?_⟩
  cases hs : cur.sorted with
  | true => exact (h hs).maxLogit_eq
  | false => rfl

namespace Sampler

section
variable [Floats F] [Sorters F] [Random F R W]

mutual
/-- Something holds of every sampler that is applied, however deep in chains, with the candidates
before and after. -/
def Along (fuel : Nat) (P : Sampler F R → Cands F → Cands F → Prop) :
    Sampler F R → Cands F → Prop
  | chain samplers, cur => AlongAll fuel P samplers cur
  | smpl, cur => ∀ r, apply fuel smpl cur = some r → P smpl cur r.2

def AlongAll (fuel : Nat) (P : Sampler F R → Cands F → Cands F → Prop) :
    List (Sampler F R) → Cands F → Prop
  | [], _ => True
  | smpl :: rest, cur =>
    Along fuel P smpl cur ∧ ∀ r, apply fuel smpl cur = some r → AlongAll fuel P rest r.2
end

/-- The candidates let the sampler keep its hands off logits in order: a bias or a grammar edits
none of tokens flagged as sorted, a sampler that sorts many tokens finds all their bucket numbers to
be ints, and infill sampling merges no end-of-generation token away. -/
def KeepsOrder (fuel : Nat) : Sampler F R → Cands F → Prop
  | logitBias biases, cur => cur.sorted = true → ∀ lb ∈ biases, ∀ t ∈ cur.data, t.id ≠ lb.1
  | grammar ctx, cur => cur.sorted = true → ∀ g ∈ ctx.grammar, ∀ positions,
      g.masked ctx.vocab fuel (cur.data.map (·.id)) = some positions → positions = []
  | topK k, cur => 128 < k → cur.Sortable
  | topP _ _, cur | minP _ _, cur | tempExt _ _ _, cur | xtc _, cur | mirostat _, cur
  | mirostatV2 _, cur | topNSigma _, cur => cur.Sortable
  | infill vocab, cur => cur.Sortable ∧ InfillKeeps vocab cur
  | _, _ => True

/-- One sampler of its own. -/
theorem apply_truthful [LawfulFloats F] [LawfulSorters F] {smpl : Sampler F R} {cur : Cands F}
    (h : cur.Truthful)
    (hleaf : ∀ samplers, smpl ≠ chain samplers) (hc : smpl.KeepsOrder fuel cur)
    (hr : smpl.apply fuel cur = some r) : r.2.Truthful := by
  cases smpl with
  | greedy =>
    cases hr
    exact h
  | dist ctx =>
    cases hr
    exact Dist.apply_truthful h ctx
  | topK k =>
    cases hr
    exact topKImpl_truthful h hc
  | topP p minKeep =>
    obtain ⟨cur', happ, rfl⟩ := Option.map_eq_some_iff.1 hr
    exact topPApply_truthful h hc happ
  | minP p minKeep =>
    cases hr
    exact minPApply_truthful h hc p minKeep
  | typical p minKeep =>
    obtain ⟨cur', happ, rfl⟩ := Option.map_eq_some_iff.1 hr
    exact typicalApply_truthful h happ
  | temp t =>
    cases hr
    exact tempApply_truthful h t
  | tempExt t delta exponent =>
    obtain ⟨cur', happ, rfl⟩ := Option.map_eq_some_iff.1 hr
    exact tempExtApply_truthful h hc happ
  | xtc ctx =>
    obtain ⟨q, happ, rfl⟩ := Option.map_eq_some_iff.1 hr
    exact Xtc.apply_truthful h hc happ
  | mirostat ctx =>
    obtain ⟨q, happ, rfl⟩ := Option.map_eq_some_iff.1 hr
    exact Mirostat.apply_truthful h hc happ
  | mirostatV2 ctx =>
    obtain ⟨q, happ, rfl⟩ := Option.map_eq_some_iff.1 hr
    exact MirostatV2.apply_truthful h hc happ
  | grammar ctx =>
    obtain ⟨cur', happ, rfl⟩ := Option.map_eq_some_iff.1 hr
    exact GrammarSampler.apply_truthful h hc happ
  | penalties ctx =>
    cases hr
    exact Penalties.apply_truthful h ctx
  | topNSigma n =>
    obtain ⟨cur', happ, rfl⟩ := Option.map_eq_some_iff.1 hr
    exact topNSigmaApply_truthful h hc happ
  | dry ctx =>
    obtain ⟨q, happ, rfl⟩ := Option.map_eq_some_iff.1 hr
    exact Dry.apply_truthful h happ
  | logitBias biases =>
    cases hr
    exact logitBiasApply_truthful h hc
  | infill vocab =>
    obtain ⟨cur', happ, rfl⟩ := Option.map_eq_some_iff.1 hr
    exact infillApply_truthful h hc.1 hc.2 happ
  | chain samplers => exact absurd rfl (hleaf samplers)

mutual
/-- A sampler leaves the flag truthful where it found it so, and so does each one within it. -/
theorem along_flagRight [LawfulFloats F] [LawfulSorters F] {smpl : Sampler F R} {cur : Cands F}
    (h : cur.Truthful)
    (hc : smpl.Along fuel (fun smpl cur _ => smpl.KeepsOrder fuel cur) cur) :
    smpl.Along fuel (fun _ _ cur' => cur'.FlagRight) cur ∧
      ∀ r, smpl.apply fuel cur = some r → r.2.Truthful := by
  cases smpl with
  | chain samplers =>
    obtain ⟨hall, hlast⟩ := alongAll_flagRight h hc
    refine ⟨hall, ?_⟩
    intro r hr
    obtain ⟨q, happ, rfl⟩ := Option.map_eq_some_iff.1 hr
    exact hlast q happ
  | _ =>
    have hr : ∀ r, apply fuel _ cur = some r → r.2.Truthful := fun r hr =>
      apply_truthful h (fun _ => by simp) (hc r hr) hr
    exact ⟨fun r happ => (hr r happ).flagRight, hr⟩

theorem alongAll_flagRight [LawfulFloats F] [LawfulSorters F] {samplers : List (Sampler F R)}
    {cur : Cands F} (h : cur.Truthful)
    (hc : AlongAll fuel (fun smpl cur _ => smpl.KeepsOrder fuel cur) samplers cur) :
    AlongAll fuel (fun _ _ cur' => cur'.FlagRight) samplers cur ∧
      ∀ r, applyAll fuel samplers cur = some r → r.2.Truthful := by
  cases samplers with
  | nil =>
    refine ⟨trivial, ?_⟩
    intro r hr
    cases hr
    exact h
  | cons smpl rest =>
    obtain ⟨hfirst, hrest⟩ := hc
    obtain ⟨hall, hlast⟩ := along_flagRight h hfirst
    refine ⟨⟨hall, fun r hr => (alongAll_flagRight (hlast r hr) (hrest r hr)).1⟩, ?_⟩
    intro r hr
    obtain ⟨q, happ, hr⟩ := Option.bind_eq_some_iff.1 hr
    obtain ⟨q', happ', rfl⟩ := Option.map_eq_some_iff.1 hr
    exact (alongAll_flagRight (hlast q happ) (hrest q happ)).2 q' happ'
end

/-- Along every chain, however nested, on candidates that start unsorted. -/
theorem flagRight_along [LawfulFloats F] [LawfulSorters F] {smpl : Sampler F R} {cur : Cands F}
    (hstart : cur.sorted = false)
    (hc : smpl.Along fuel (fun smpl cur _ => smpl.KeepsOrder fuel cur) cur) :
    smpl.Along fuel (fun _ _ cur' => cur'.FlagRight) cur :=
  (along_flagRight (truthful_of_unsorted hstart) hc).1

end

/-- Two candidates, flagged as unsorted. -/
def twoTokens : Cands Exact := ⟨[⟨0, some 1, some 0⟩, ⟨1, some 2, some 0⟩], -1, false⟩

/-- A bias before the sampler that sorts. -/
theorem biasThenTopK_flagRight :
    (chain [logitBias [(1, some 5)], topK 2, temp (some 2)] : Sampler Exact Nat).Along 0
      (fun _ _ cur' => cur'.FlagRight) twoTokens := by
  apply flagRight_along rfl
  refine ⟨?_, fun _ _ => ⟨?_, fun _ _ => ⟨fun _ _ => trivial, fun _ _ => trivial⟩⟩⟩
  · intro _ _ hs
    exact absurd hs Bool.false_ne_true
  · intro _ _ hlarge
    exact absurd hlarge (by decide)

/-- A bias behind the sampler that sorts leaves the flag on tokens that are out of order. -/
theorem topKThenBias_not_flagRight :
    ¬ (chain [topK 2, logitBias [(0, some 5)]] : Sampler Exact Nat).Along 0
      (fun _ _ cur' => cur'.FlagRight) twoTokens := by
  intro h
  have hbias := (h.2 _ rfl).1 _ rfl
  have hdesc : Descending _ := hbias.1 rfl
  revert hdesc
  unfold Descending
  decide +kernel

end Sampler
end ActQuant.Sampling
