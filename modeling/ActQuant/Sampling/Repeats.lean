import ActQuant.Lib.Dict
import ActQuant.Sampling.Candidates

namespace ActQuant.Sampling
open ActQuant.Lib Floats

/-! The samplers that penalize what repeats, over a window of the last tokens. -/

/-- `ring_buffer`: like a deque, but with a fixed capacity. -/
structure RingBuffer (α : Type) where
  capacity : Nat
  sz : Nat
  first : Nat
  pos : Nat
  data : List α
  deriving DecidableEq

namespace RingBuffer

def ofCapacity [Inhabited α] (cap : Nat) : RingBuffer α := ⟨cap, 0, 0, 0, List.replicate cap default⟩

def front (b : RingBuffer α) : Option α := if b.sz = 0 then none else b.data[b.first]?

def pushBack (b : RingBuffer α) (value : α) : Option (RingBuffer α) :=
  if b.capacity = 0 then none
  else if b.sz = b.capacity then
    some { b with
      first := (b.first + 1) % b.capacity
      data := b.data.set b.pos value
      pos := (b.pos + 1) % b.capacity }
  else
    some { b with
      sz := b.sz + 1
      data := b.data.set b.pos value
      pos := (b.pos + 1) % b.capacity }

/-- The `i`-th value from the end. -/
def rat (b : RingBuffer α) (i : Nat) : Option α :=
  if b.sz ≤ i then none else b.data[(b.first + b.sz - i - 1) % b.capacity]?

/-- Only the status is reset. -/
def clear (b : RingBuffer α) : RingBuffer α := { b with sz := 0, first := 0, pos := 0 }

end RingBuffer

/-- `llama_sampler_penalties`. -/
structure Penalties (F : Type) where
  penaltyLastN : Nat
  penaltyRepeat : F
  penaltyFreq : F
  penaltyPresent : F
  prev : RingBuffer Int
  tokenCount : Dict Int Int
  deriving DecidableEq

namespace Penalties

def init (penaltyLastN : Int) (penaltyRepeat penaltyFreq penaltyPresent : F) : Penalties F :=
  let penaltyLastN := (max penaltyLastN 0).toNat
  ⟨penaltyLastN, penaltyRepeat, penaltyFreq, penaltyPresent, .ofCapacity penaltyLastN, []⟩

def count (ctx : Penalties F) (token : Int) : Int := (ctx.tokenCount.lookup token).getD 0

def accept (ctx : Penalties F) (token : Int) : Option (Penalties F) :=
  if ctx.penaltyLastN = 0 then some ctx
  else
    let ctx := { ctx with tokenCount := ctx.tokenCount.set token (ctx.count token + 1) }
    -- if the ring buffer is full, the oldest token is removed
    let ctx :=
      if ctx.penaltyLastN ≤ ctx.prev.sz then
        ctx.prev.front.map fun old =>
          let n := ctx.count old - 1
          { ctx with tokenCount :=
              if n = 0 then ctx.tokenCount.filter fun e => e.1 ≠ old
              else ctx.tokenCount.set old n }
      else some ctx
    ctx.bind fun ctx => (ctx.prev.pushBack token).map fun prev => { ctx with prev := prev }

/-- With a window and a penalty, tokens are penalized. -/
def Active [Floats F] (ctx : Penalties F) : Prop :=
  ctx.penaltyLastN ≠ 0 ∧
    ¬ (ctx.penaltyRepeat = ofRat 1 ∧ ctx.penaltyFreq = ofRat 0 ∧ ctx.penaltyPresent = ofRat 0)

instance [Floats F] (ctx : Penalties F) : Decidable ctx.Active :=
  inferInstanceAs (Decidable (_ ∧ ¬ _))

/-- The logit of a token that occurs in the window. -/
def penalize [Floats F] (ctx : Penalties F) (count : Int) (logit : F) : F :=
  let logit := if logit ≤ ofRat 0 then mul logit ctx.penaltyRepeat else div logit ctx.penaltyRepeat
  sub logit (add (mul (ofRat count) ctx.penaltyFreq)
    (mul (ofRat (if 0 < count then 1 else 0)) ctx.penaltyPresent))

def apply [Floats F] (ctx : Penalties F) (cur : Cands F) : Cands F :=
  if ctx.Active then
    { cur with
      data := cur.data.map fun t =>
        match ctx.tokenCount.lookup t.id with
        | none => t
        | some count => { t with logit := ctx.penalize count t.logit }
      sorted := false }
  else cur

def reset (ctx : Penalties F) : Penalties F := { ctx with prev := ctx.prev.clear, tokenCount := [] }

def clone (ctx : Penalties F) : Penalties F :=
  let result := init ctx.penaltyLastN ctx.penaltyRepeat ctx.penaltyFreq ctx.penaltyPresent
  { result with prev := ctx.prev }

end Penalties

/-- `llama_sampler_dry`; the breakers are the processed ones, heads with their tails. -/
structure Dry (F : Type) where
  totalContextSize : Int
  dryMultiplier : F
  dryBase : F
  dryAllowedLength : Int
  dryPenaltyLastN : Int
  dryProcessedBreakers : List (Int × List Int)
  dryRepeatCount : List Nat
  dryMaxTokenRepeat : Dict Int Nat
  lastTokens : RingBuffer Int
  deriving DecidableEq

namespace Dry

def effectiveLastN (dryPenaltyLastN nCtxTrain : Int) : Int :=
  if dryPenaltyLastN = -1 then nCtxTrain else max dryPenaltyLastN 0

/-- The longest restart sequence that ends `i` tokens before the end of the context, without its
head. The tokens are given from the last one backwards. -/
def longestMatch (breakers : List (Int × List Int)) (toks : List Int) (i : Nat) : Option Nat :=
  (breakers.filter fun b => toks[i]? = some b.1).foldl (fun longest b =>
    let seqLen := b.2.length
    if longest.all (· < seqLen) ∧ seqLen ≤ i ∧
        ∀ offset < seqLen, b.2[offset]? = toks[i - offset - 1]? then some seqLen
    else longest) none

/-- The limit that the first restart sequence sets to repetitions. -/
def repLimit (breakers : List (Int × List Int)) (toks : List Int) : Nat :=
  ((List.range toks.length).findSome? fun i =>
    (longestMatch breakers toks i).map fun longest => i - longest).getD toks.length

/-- How far the tokens equal those `k` places before, from the `i`-th one on. -/
def matchEnd (toks : List Int) (k : Nat) : Nat → Nat → Nat
  | 0, i => i
  | n + 1, i => if toks[i]? = toks[i - k]? then matchEnd toks k n (i + 1) else i

/-- The repeat counts with the bounds of the current Z-box. -/
structure ZBox where
  counts : List Nat
  lt : Nat
  rt : Nat
  deriving DecidableEq

/-- The body of the Z-algorithm's loop. -/
def zStep (toks : List Int) (repLimit : Nat) (z : ZBox) (k : Nat) : ZBox :=
  let last := toks.length - 1
  if z.rt < k then
    let n := matchEnd toks k (toks.length - k) k - k
    let counts := z.counts.set (last - k) (min n repLimit)
    if 0 < n then ⟨counts, k, k + n - 1⟩ else { z with counts := counts }
  else
    let pair := z.counts.getD (last - (k - z.lt)) 0
    if pair < z.rt - k + 1 then { z with counts := z.counts.set (last - k) (min pair repLimit) }
    else
      let i := matchEnd toks k (toks.length - (z.rt + 1)) (z.rt + 1)
      ⟨z.counts.set (last - k) (min (i - k) repLimit), k, i - 1⟩

def repeatCounts (toks : List Int) (repLimit : Nat) : List Nat :=
  ((List.range' 1 (toks.length - 1)).foldl (zStep toks repLimit)
    ⟨List.replicate toks.length 0, 0, 0⟩).counts

/-- The tokens that would extend a repetition, with the longest one each. -/
def maxTokenRepeat (allowedLength : Int) (toks : List Int) (counts : List Nat) : Dict Int Nat :=
  (List.range (toks.length - 1)).foldl (fun longest i =>
    let repeatLen := counts.getD i 0
    let token := toks.getD (toks.length - 2 - i) 0
    if allowedLength ≤ repeatLen ∧ (longest.lookup token).all (· < repeatLen) then
      longest.set token repeatLen
    else longest) []

section
variable [Floats F]

/-- The largest exponent of the base that does not overflow, 0 for none. -/
def maxExponent (base : F) : Int :=
  if ofRat (1000001 / 1000000) < base then toInt (div (ofRat (887228391 / 10000000)) (log base))
  else 0

/-- The penalty for extending a repetition. -/
def penalty (ctx : Dry F) (repeatLen : Nat) : F :=
  let repeatExp : Int := repeatLen - ctx.dryAllowedLength
  let limit := maxExponent ctx.dryBase
  let repeatExp := if 0 < limit ∧ limit < repeatExp then limit else repeatExp
  mul ctx.dryMultiplier (pow ctx.dryBase (ofRat repeatExp))

/-- Switched off. -/
def Disabled (ctx : Dry F) : Prop :=
  ctx.dryMultiplier = ofRat 0 ∨ ctx.dryBase < ofRat 1 ∨ ctx.dryPenaltyLastN = 0

instance (ctx : Dry F) : Decidable ctx.Disabled := inferInstanceAs (Decidable (_ ∨ _ ∨ _))

def init (nCtxTrain : Int) (dryMultiplier dryBase : F) (dryAllowedLength dryPenaltyLastN : Int)
    (processedBreakers : List (Int × List Int)) : Dry F :=
  let effective := (effectiveLastN dryPenaltyLastN nCtxTrain).toNat
  let ctx : Dry F := ⟨nCtxTrain, dryMultiplier, dryBase, dryAllowedLength, dryPenaltyLastN,
    processedBreakers, [], [], .ofCapacity 0⟩
  if ctx.Disabled then ctx
  else { ctx with dryRepeatCount := List.replicate effective 0, lastTokens := .ofCapacity effective }

def accept (ctx : Dry F) (token : Int) : Option (Dry F) :=
  if ctx.Disabled then some ctx
  else (ctx.lastTokens.pushBack token).map fun lastTokens => { ctx with lastTokens := lastTokens }

def penalizeToken (ctx : Dry F) (t : TokenData F) : TokenData F :=
  match ctx.dryMaxTokenRepeat.lookup t.id with
  | none => t
  | some repeatLen =>
    -- a breaker of a single token is not penalized
    if (t.id, []) ∈ ctx.dryProcessedBreakers then t
    else { t with logit := sub t.logit (ctx.penalty repeatLen) }

def apply (ctx : Dry F) (cur : Cands F) : Option (Dry F × Cands F) :=
  if ctx.Disabled then some (ctx, cur)
  else
    let lastNRepeat := min (min (ctx.lastTokens.sz : Int)
      (effectiveLastN ctx.dryPenaltyLastN ctx.totalContextSize)) ctx.totalContextSize
    if lastNRepeat ≤ ctx.dryAllowedLength then some (ctx, cur)
    else if lastNRepeat < 0 then none
    else
      ((List.range lastNRepeat.toNat).mapM ctx.lastTokens.rat).map fun toks =>
        let limit := repLimit ctx.dryProcessedBreakers toks
        if (limit : Int) < ctx.dryAllowedLength then
          ({ ctx with dryRepeatCount := List.replicate toks.length 0, dryMaxTokenRepeat := [] }, cur)
        else
          let counts := repeatCounts toks limit
          let ctx := { ctx with
            dryRepeatCount := counts
            dryMaxTokenRepeat := maxTokenRepeat ctx.dryAllowedLength toks counts }
          (ctx, { cur with data := cur.data.map ctx.penalizeToken, sorted := false })

def reset (ctx : Dry F) : Dry F :=
  { ctx with lastTokens := ctx.lastTokens.clear, dryRepeatCount := [], dryMaxTokenRepeat := [] }

def clone (ctx : Dry F) : Dry F :=
  let result := init ctx.totalContextSize ctx.dryMultiplier ctx.dryBase ctx.dryAllowedLength
    ctx.dryPenaltyLastN []
  { result with
    dryProcessedBreakers := ctx.dryProcessedBreakers
    dryRepeatCount := ctx.dryRepeatCount
    dryMaxTokenRepeat := ctx.dryMaxTokenRepeat
    lastTokens := ctx.lastTokens }

end
end Dry
end ActQuant.Sampling
