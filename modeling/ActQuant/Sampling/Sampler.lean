import ActQuant.Grammar.Session
import ActQuant.Sampling.Filters
import ActQuant.Sampling.Repeats
import Mathlib.Data.Rat.Floor

namespace ActQuant.Sampling
open Floats

/-! All samplers under one interface, and their chains. -/

/-- `llama_sampler_grammar`; the grammar is missing where none was given. -/
structure GrammarSampler where
  vocab : Grammar.Vocab
  grammarStr : Grammar.Text
  grammarRoot : Grammar.Text
  grammar : Option Grammar.Session

namespace GrammarSampler

def accept (fuel : Nat) (ctx : GrammarSampler) (token : Int) : Option GrammarSampler :=
  match ctx.grammar with
  | none => some ctx
  | some g => (g.acceptImpl ctx.vocab fuel token).map fun g => { ctx with grammar := some g }

def maskAt [Floats F] (data : List (TokenData F)) (positions : List Nat) : List (TokenData F) :=
  positions.foldl (fun data i => data.modify i TokenData.mask) data

def apply [Floats F] (fuel : Nat) (ctx : GrammarSampler) (cur : Cands F) : Option (Cands F) :=
  match ctx.grammar with
  | none => some cur
  | some g => (g.masked ctx.vocab fuel (cur.data.map (·.id))).map fun positions =>
      { cur with data := maskAt cur.data positions }

def reset (fuel : Nat) (ctx : GrammarSampler) : Option GrammarSampler :=
  match ctx.grammar with
  | none => some ctx
  | some g =>
    (Grammar.Session.initImpl fuel ctx.grammarStr ctx.grammarRoot g.isLazy g.triggerPatterns
      g.triggerTokens).map fun grammar => { ctx with grammar := grammar }

def clone (ctx : GrammarSampler) : GrammarSampler :=
  match ctx.grammar with
  | none => { ctx with grammarStr := [], grammarRoot := [] }
  | some g => { ctx with grammar := some g }

end GrammarSampler

/-- `llama_sampler`. -/
inductive Sampler (F R : Type) where
  | greedy
  | dist (ctx : Dist R)
  | topK (k : Int)
  | topP (p : F) (minKeep : Nat)
  | minP (p : F) (minKeep : Nat)
  | typical (p : F) (minKeep : Nat)
  | temp (temp : F)
  | tempExt (temp delta exponent : F)
  | xtc (ctx : Xtc F R)
  | mirostat (ctx : Mirostat F R)
  | mirostatV2 (ctx : MirostatV2 F R)
  | grammar (ctx : GrammarSampler)
  | penalties (ctx : Penalties F)
  | topNSigma (n : F)
  | dry (ctx : Dry F)
  | logitBias (biases : List (Int × F))
  | infill (vocab : InfillVocab)
  | chain (samplers : List (Sampler F R))

namespace Sampler

section
variable [Floats F]

mutual
/-- `llama_sampler_accept`. -/
def accept (fuel : Nat) (token : Int) : Sampler F R → Option (Sampler F R)
  | grammar ctx => (ctx.accept fuel token).map grammar
  | penalties ctx => (ctx.accept token).map penalties
  | dry ctx => (ctx.accept token).map dry
  | chain samplers => (acceptAll fuel token samplers).map chain
  | smpl => some smpl

def acceptAll (fuel : Nat) (token : Int) : List (Sampler F R) → Option (List (Sampler F R))
  | [] => some []
  | smpl :: rest =>
    (accept fuel token smpl).bind fun smpl => (acceptAll fuel token rest).map (smpl :: ·)
end

variable [Sorters F] [Random F R W]

mutual
/-- `llama_sampler_apply`. -/
def apply (fuel : Nat) : Sampler F R → Cands F → Option (Sampler F R × Cands F)
  | greedy, cur => some (greedy, greedyApply cur)
  | dist ctx, cur => some (dist (ctx.apply cur).1, (ctx.apply cur).2)
  | topK k, cur => some (topK k, topKApply k cur)
  | topP p minKeep, cur => (topPApply p minKeep cur).map (topP p minKeep, ·)
  | minP p minKeep, cur => some (minP p minKeep, minPApply p minKeep cur)
  | typical p minKeep, cur => (typicalApply p minKeep cur).map (typical p minKeep, ·)
  | temp t, cur => some (temp t, tempApply t cur)
  | tempExt t delta exponent, cur =>
    (tempExtApply t delta exponent cur).map (tempExt t delta exponent, ·)
  | xtc ctx, cur => (ctx.apply cur).map fun r => (xtc r.1, r.2)
  | mirostat ctx, cur => (ctx.apply cur).map fun r => (mirostat r.1, r.2)
  | mirostatV2 ctx, cur => (ctx.apply cur).map fun r => (mirostatV2 r.1, r.2)
  | grammar ctx, cur => (ctx.apply fuel cur).map (grammar ctx, ·)
  | penalties ctx, cur => some (penalties ctx, ctx.apply cur)
  | topNSigma n, cur => (topNSigmaApply n cur).map (topNSigma n, ·)
  | dry ctx, cur => (ctx.apply cur).map fun r => (dry r.1, r.2)
  | logitBias biases, cur => some (logitBias biases, logitBiasApply biases cur)
  | infill vocab, cur => (infillApply vocab cur).map (infill vocab, ·)
  | chain samplers, cur => (applyAll fuel samplers cur).map fun r => (chain r.1, r.2)

def applyAll (fuel : Nat) :
    List (Sampler F R) → Cands F → Option (List (Sampler F R) × Cands F)
  | [], cur => some ([], cur)
  | smpl :: rest, cur =>
    (apply fuel smpl cur).bind fun r =>
      (applyAll fuel rest r.2).map fun q => (r.1 :: q.1, q.2)
end

mutual
/-- `llama_sampler_reset`. -/
def reset (fuel : Nat) : Sampler F R → W → Option (Sampler F R × W)
  | dist ctx, w => some (dist (ctx.reset w).1, (ctx.reset w).2)
  | xtc ctx, w => some (xtc (ctx.reset w).1, (ctx.reset w).2)
  | mirostat ctx, w => some (mirostat (ctx.reset w).1, (ctx.reset w).2)
  | mirostatV2 ctx, w => some (mirostatV2 (ctx.reset w).1, (ctx.reset w).2)
  | grammar ctx, w => (ctx.reset fuel).map (grammar ·, w)
  | penalties ctx, w => some (penalties ctx.reset, w)
  | dry ctx, w => some (dry ctx.reset, w)
  | chain samplers, w => (resetAll fuel samplers w).map fun r => (chain r.1, r.2)
  | smpl, w => some (smpl, w)

def resetAll (fuel : Nat) : List (Sampler F R) → W → Option (List (Sampler F R) × W)
  | [], w => some ([], w)
  | smpl :: rest, w =>
    (reset fuel smpl w).bind fun r =>
      (resetAll fuel rest r.2).map fun q => (r.1 :: q.1, q.2)
end

/-- What a clone makes: the sampler it was made from, the new one, and what later seeds are taken
from. -/
structure Cloned (S W : Type) where
  original : S
  clone : S
  world : W

mutual
/-- `llama_sampler_clone`. -/
def clone : Sampler F R → W → Cloned (Sampler F R) W
  | dist ctx, w => ⟨dist ctx, dist (ctx.clone w).1, (ctx.clone w).2⟩
  | xtc ctx, w => ⟨xtc ctx, xtc (ctx.clone w).1, (ctx.clone w).2⟩
  | mirostat ctx, w =>
    ⟨mirostat (ctx.clone w).1, mirostat (ctx.clone w).2.1, (ctx.clone w).2.2⟩
  | mirostatV2 ctx, w => ⟨mirostatV2 ctx, mirostatV2 (ctx.clone w).1, (ctx.clone w).2⟩
  | grammar ctx, w => ⟨grammar ctx, grammar ctx.clone, w⟩
  | penalties ctx, w => ⟨penalties ctx, penalties ctx.clone, w⟩
  | dry ctx, w => ⟨dry ctx, dry ctx.clone, w⟩
  | chain samplers, w =>
    let r := cloneAll samplers w
    ⟨chain r.original, chain r.clone, r.world⟩
  | smpl, w => ⟨smpl, smpl, w⟩

def cloneAll : List (Sampler F R) → W → Cloned (List (Sampler F R)) W
  | [], w => ⟨[], [], w⟩
  | smpl :: rest, w =>
    let r := clone smpl w
    let q := cloneAll rest r.world
    ⟨r.original :: q.original, r.clone :: q.clone, q.world⟩
end

end
end Sampler
end ActQuant.Sampling

namespace ActQuant.Sampling
open Floats Sorters

/-! Exact numbers, sorting by insertion and a small generator, on which samplers can be run. -/

/-- A number, or minus infinity. -/
abbrev Exact := WithBot ℚ

namespace Exact

def map₂ (f : ℚ → ℚ → ℚ) : Exact → Exact → Exact
  | some a, some b => some (f a b)
  | _, _ => none

def map (f : ℚ → ℚ) : Exact → Exact
  | some a => some (f a)
  | none => none

/-- Towards zero, and the smallest int for what is out of range. -/
def truncate : Exact → Int
  | none => -2 ^ 31
  | some q => if q < 2 ^ 31 then max (-2 ^ 31) (if 0 ≤ q then ⌊q⌋ else ⌈q⌉) else -2 ^ 31

/-- The functions that have no exact value are taken at the points where they have one. -/
instance : Floats Exact where
  ofRat q := some q
  negInf := none
  add := map₂ (· + ·)
  sub := map₂ (· - ·)
  mul := map₂ (· * ·)
  div := map₂ (· / ·)
  neg := map (- ·)
  fabs := map abs
  exp := fun | some _ => some 1 | none => some 0
  log := fun _ => some 0
  log2 := fun _ => some 0
  sqrt := fun a => a
  pow := fun a b => match a, b with
    | some a, some b => some (a ^ b.num)
    | _, _ => none
  toInt := truncate

theorem le_iff {a b : Exact} : a ≤ b ↔ a = none ∨ ∃ p q, a = some p ∧ b = some q ∧ p ≤ q := by
  constructor
  · intro h
    rcases a with _ | p
    · exact .inl rfl
    · rcases b with _ | q
      · exact absurd h (WithBot.not_coe_le_bot p)
      · exact .inr ⟨p, q, rfl, rfl, WithBot.coe_le_coe.1 h⟩
  · rintro (rfl | ⟨p, q, rfl, rfl, h⟩)
    · exact bot_le
    · exact WithBot.coe_le_coe.2 h

theorem map₂_le {f : ℚ → ℚ → ℚ} {a b : Exact} (h : a ≤ b) (q : ℚ)
    (hf : ∀ p p', p ≤ p' → f p q ≤ f p' q) : map₂ f a (some q) ≤ map₂ f b (some q) := by
  rcases le_iff.1 h with rfl | ⟨p, p', rfl, rfl, hle⟩
  · exact bot_le
  · exact WithBot.coe_le_coe.2 (hf p p' hle)

theorem truncate_le {a b : Exact} (h : a ≤ b) (hb : b < some (2 ^ 31)) :
    truncate a ≤ truncate b := by
  rcases le_iff.1 h with rfl | ⟨p, q, rfl, rfl, hle⟩
  · rcases b with _ | q
    · exact le_refl _
    · rw [truncate, truncate, if_pos (WithBot.coe_lt_coe.1 hb)]
      exact le_max_left _ _
  · have hround : (if 0 ≤ p then ⌊p⌋ else ⌈p⌉) ≤ (if 0 ≤ q then ⌊q⌋ else ⌈q⌉) := by
      split
      case isTrue hp =>
        rw [if_pos (le_trans hp hle)]
        exact Int.floor_le_floor hle
      case isFalse hp =>
        split
        case isTrue hq =>
          have hneg : ⌈p⌉ ≤ 0 := Int.ceil_le.2 (by exact_mod_cast le_of_not_ge hp)
          exact le_trans hneg (Int.floor_nonneg.2 hq)
        case isFalse => exact Int.ceil_le_ceil hle
    have hq : q < 2 ^ 31 := WithBot.coe_lt_coe.1 hb
    rw [truncate, truncate, if_pos (lt_of_le_of_lt hle hq), if_pos hq]
    exact max_le_max_left _ hround

instance : LawfulFloats Exact where
  negInf_le _ := bot_le
  add_le a b c h := by
    rcases c with _ | q
    · rcases a with _ | p
      · exact bot_le
      · exact bot_le
    · exact map₂_le h q fun _ _ hle => by gcongr
  mul_le a b c hc h := by
    rcases c with _ | q
    · exact absurd hc (not_lt_of_ge bot_le)
    · have hq : 0 < q := WithBot.coe_lt_coe.1 hc
      rcases le_iff.1 h with rfl | ⟨p, p', rfl, rfl, hle⟩
      · exact bot_le
      · exact WithBot.coe_le_coe.2 (mul_le_mul_of_nonneg_left hle hq.le)
  div_le a b c hc h := by
    rcases c with _ | q
    · exact absurd hc (not_lt_of_ge bot_le)
    · have hq : 0 < q := WithBot.coe_lt_coe.1 hc
      exact map₂_le h q fun _ _ hle => by gcongr
  toInt_le _ _ h := truncate_le h
  bucketScale_pos := WithBot.coe_lt_coe.2 (by norm_num)
  thold_pos := WithBot.coe_lt_coe.2 (by norm_num)

/-- The order in which the tokens are sorted. -/
def Before (a b : TokenData Exact) : Prop := b.logit ≤ a.logit

instance : DecidableRel Before := fun a b => inferInstanceAs (Decidable (b.logit ≤ a.logit))

instance : Std.Total Before := ⟨fun a b => le_total b.logit a.logit⟩

instance : IsTrans (TokenData Exact) Before := ⟨fun _ _ _ hab hbc => le_trans hbc hab⟩

instance : Sorters Exact where
  sort l := l.insertionSort Before
  partialSort _ l := l.insertionSort Before
  sortIndices scores l := l.insertionSort fun i j =>
    scores.getD i (some 0) ≤ scores.getD j (some 0)

instance : LawfulSorters Exact where
  sort_perm l := List.perm_insertionSort Before l
  sort_descending l := List.pairwise_insertionSort Before l
  partialSort_perm _ l := List.perm_insertionSort Before l
  partialSort_descending n l _ :=
    (List.pairwise_insertionSort Before l).sublist (List.take_sublist n _)
  partialSort_top n l _ a ha b hb := by
    have h := List.pairwise_insertionSort Before l
    rw [← List.take_append_drop n (l.insertionSort Before), List.pairwise_append] at h
    exact h.2.2 a ha b hb

/-- A linear congruential generator. -/
def step (r : Nat) : Nat := (1664525 * r + 1013904223) % 2 ^ 32

def fraction (r : Nat) : Exact := some ((r : ℚ) / 2 ^ 32)

instance : Random Exact Nat Nat where
  seeded := id
  uniform r := (fraction r, step r)
  uniformFloat r := (fraction r, step r)
  discrete weights r := (((List.range weights.length).find? fun i =>
    map₂ (· * ·) (fraction r) (weights.foldl (map₂ (· + ·)) (some 0)) ≤
      (weights.take (i + 1)).foldl (map₂ (· + ·)) (some 0)).getD 0, step r)
  entropy w := (w, step w)

end Exact
end ActQuant.Sampling
