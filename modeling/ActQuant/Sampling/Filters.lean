import ActQuant.Sampling.Candidates

namespace ActQuant.Sampling
open Floats Sorters

/-! The samplers without a state of their own. -/

section
variable [Floats F] [Sorters F]

/-- The number of tokens as a float. -/
def ofSize (n : Nat) : F := ofRat n

def greedyApply (cur : Cands F) : Cands F :=
  let step := fun (best : Nat × Option F) (t : Nat × TokenData F) =>
    match best.2 with
    | none => (t.1, some t.2.logit)
    | some logit => if logit < t.2.logit then (t.1, some t.2.logit) else best
  let best := ((List.range cur.size).zip cur.data).foldl step (0, none)
  { cur with selected := best.1 }

def topKApply (k : Int) (cur : Cands F) : Cands F := topKImpl cur k

/-- The probability of the token at an index. -/
def probAt (data : List (TokenData F)) (i : Nat) : F := (data[i]?.map (·.p)).getD (ofRat 0)

/-- The loop of `llama_sampler_top_p_apply` from the `i`-th token on, with `n` tokens to go: the
number of tokens to keep, and the sorted tokens they are taken from. -/
def topPLoop (p : F) (minKeep : Nat) (cur : Cands F) :
    Nat → Nat → Nat → F → List (TokenData F) → Nat × List (TokenData F)
  | 0, i, _, _, pdata => (i, pdata)
  | n + 1, i, k, cumSum, pdata =>
    let cumSum := add cumSum (probAt pdata i)
    if p ≤ cumSum ∧ minKeep ≤ i + 1 then (i + 1, pdata)
    else if ¬ cur.sorted ∧ i + 1 = k then
      topPLoop p minKeep cur n (i + 1) cur.size cumSum (partialSortBuckets cur.data cur.size)
    else topPLoop p minKeep cur n (i + 1) k cumSum pdata

def topPApply (p : F) (minKeep : Nat) (cur : Cands F) : Option (Cands F) :=
  if ofRat 1 ≤ p then some cur
  else
    (softmaxImpl cur false).map fun cur =>
      let large := ¬ cur.sorted ∧ 1024 < cur.size
      let k := if large then min 256 cur.size else cur.size
      let pdata := if large then partialSortBuckets cur.data k else cur.data
      -- few candidates are sorted in place
      let cur := if ¬ cur.sorted ∧ ¬ large then partialSortInplace cur k else cur
      let pdata := if large then pdata else cur.data
      let r := topPLoop p minKeep cur cur.size 0 k (ofRat 0) pdata
      { cur with data := r.2.take r.1, sorted := true }

/-- How many tokens of a sorted list min-p keeps, behind the first `i`. -/
def minPCount (minLogit : F) (minKeep : Nat) : Nat → List (TokenData F) → Nat
  | i, [] => i
  | i, t :: rest =>
    if t.logit < minLogit ∧ minKeep ≤ i then i else minPCount minLogit minKeep (i + 1) rest

def minPApply (p : F) (minKeep : Nat) (cur : Cands F) : Cands F :=
  if p ≤ ofRat 0 ∨ cur.size = 0 then cur
  else
    let maxLogit := cur.data.foldl (fun m t => max m t.logit) (neg (ofRat (2 ^ 128 - 2 ^ 104)))
    let filtered := cur.data.filter fun t => add maxLogit (log p) ≤ t.logit
    if ¬ cur.sorted ∧ filtered ≠ [] ∧ minKeep ≤ filtered.length then { cur with data := filtered }
    else
      let cur := if cur.sorted then cur else partialSortInplace cur cur.size
      match cur.data with
      | [] => cur
      | first :: rest =>
        let n := minPCount (add first.logit (log p)) minKeep 1 rest
        { cur with data := cur.data.take n }

/-- How many of the indices typical sampling keeps, from the `i`-th on. -/
def typicalCount (p : F) (minKeep : Nat) (data : List (TokenData F)) :
    Nat → F → List Nat → Nat
  | i, _, [] => i
  | i, cumSum, idx :: rest =>
    let cumSum := add cumSum (probAt data idx)
    if p < cumSum ∧ (minKeep = 0 ∨ minKeep - 1 ≤ i) then i + 1
    else typicalCount p minKeep data (i + 1) cumSum rest

def typicalApply (p : F) (minKeep : Nat) (cur : Cands F) : Option (Cands F) :=
  if ofRat 1 ≤ p then some cur
  else
    (softmaxImpl cur true).map fun cur =>
      let entropy := cur.data.foldl (fun s t => add s (mul (neg t.p) (log t.p))) (ofRat 0)
      let shiftedScores := cur.data.map fun t => fabs (sub (neg (log t.p)) entropy)
      let indices := sortIndices shiftedScores (List.range cur.size)
      let lastIdx := typicalCount p minKeep cur.data 0 (ofRat 0) indices
      { cur with data := (indices.take lastIdx).filterMap fun i => cur.data[i]?, sorted := false }

def tempApply (temp : F) (cur : Cands F) : Cands F := tempImpl cur temp

def tempExtApply (temp delta exponent : F) (cur : Cands F) : Option (Cands F) :=
  if ofRat 0 < delta then
    if cur.size ≤ 1 then some cur
    else
      let minTemp := max (ofRat 0) (sub temp delta)
      let maxTemp := add temp delta
      let maxEntropy := neg (log (div (ofRat 1) (ofSize cur.size)))
      (softmaxImpl cur true).map fun cur =>
        let entropy := cur.data.foldl
          (fun s t => if ofRat 0 < t.p then sub s (mul t.p (log t.p)) else s) (ofRat 0)
        let dynTemp := add minTemp
          (mul (sub maxTemp minTemp) (pow (div entropy maxEntropy) exponent))
        let cur := tempImpl cur dynTemp
        { cur with data := setProbs (maxLogit true cur.data) cur.data }
  else some (tempImpl cur temp)

def topNSigmaApply (n : F) (cur : Cands F) : Option (Cands F) :=
  if n ≤ ofRat 0 ∨ cur.size ≤ 1 then some cur
  else
    let valid := cur.data.filter fun t => t.logit ≠ negInf
    let maxL : F := valid.foldl (fun m t => max m t.logit) (maxLogit true cur.data)
    let sum : F := valid.foldl (fun s t => add s t.logit) (ofRat 0)
    let mean := if 0 < valid.length then div sum (ofSize valid.length) else ofRat 0
    let acc : F := valid.foldl (fun s t => add s (pow (sub t.logit mean) (ofRat 2))) (ofRat 0)
    let std : F := if 0 < valid.length then sqrt (div acc (ofSize valid.length)) else ofRat 0
    let minL : F := sub maxL (mul n std)
    let data := cur.data.map fun (t : TokenData F) => if t.logit < minL then t.mask else t
    softmaxImpl { cur with data := data } true

def TokenData.biased (t : TokenData F) (bias : F) : TokenData F :=
  { t with logit := add t.logit bias }

/-- The biases whose token is where its number is are applied at once; the others are left to
search for. -/
def applyDirect (data : List (TokenData F)) :
    List (Int × F) → List (TokenData F) × List (Int × F)
  | [] => (data, [])
  | lb :: biases =>
    if 0 ≤ lb.1 ∧ (data[lb.1.toNat]?.map (·.id)) = some lb.1 then
      applyDirect (data.modify lb.1.toNat fun t => t.biased lb.2) biases
    else
      let r := applyDirect data biases
      (r.1, lb :: r.2)

/-- A token with the first of the biases that is its. -/
def searchBias (toSearch : List (Int × F)) (t : TokenData F) : TokenData F :=
  match toSearch.find? fun lb => t.id = lb.1 with
  | some lb => t.biased lb.2
  | none => t

def logitBiasApply (logitBias : List (Int × F)) (cur : Cands F) : Cands F :=
  let r := applyDirect cur.data logitBias
  { cur with data := r.1.map (searchBias r.2) }

/-- What infill sampling reads of a vocabulary; the pieces are without those of control tokens. -/
structure InfillVocab where
  isEog : Int → Bool
  tokenToPiece : Int → List Nat
  tokenEot : Int

/-- The body of the loops that combine tokens with a common beginning. A piece that does not fit
the buffer is an exception. -/
def combineStep (vocab : InfillVocab) (data : List (TokenData F)) (i : Nat × Nat) :
    Option (List (TokenData F)) :=
  match data[i.1]?, data[i.2]? with
  | some t0, some t1 =>
    if t0.logit = negInf ∨ i.1 = i.2 ∨ t1.logit = negInf then some data
    else
      let piece0 := vocab.tokenToPiece t0.id
      let piece1 := vocab.tokenToPiece t1.id
      if 512 < piece0.length ∨ 512 < piece1.length then none
      else if piece0 ≠ [] ∧ piece0.isPrefixOf piece1 then
        -- the token with the higher probability takes the other one's
        let dst := if t0.p < t1.p then i.2 else i.1
        let src := if t0.p < t1.p then i.1 else i.2
        some ((data.modify dst fun t => { t with p := add t.p (probAt data src) }).modify src
          fun t => { t.mask with p := ofRat 0 })
      else some data
  | _, _ => some data

/-- The pairs of indices in the order of two loops, one within the other. -/
def tokenPairs (n : Nat) : List (Nat × Nat) :=
  (List.range n).flatMap fun i0 => (List.range n).map fun i1 => (i0, i1)

def combine (vocab : InfillVocab) (data : List (TokenData F)) : Option (List (TokenData F)) :=
  (tokenPairs data.length).foldlM (combineStep vocab) data

def sumProbs (data : List (TokenData F)) : F := data.foldl (fun s t => add s t.p) (ofRat 0)

def scaleProbs (sum : F) (data : List (TokenData F)) : List (TokenData F) :=
  data.map fun t => { t with p := div t.p sum }

/-- The probability of text is too low against that of the end of generation. -/
def eogLikely (vocab : InfillVocab) (cur : Cands F) : Bool :=
  let pEogSum := sumProbs (cur.data.filter fun t => vocab.isEog t.id)
  let pTxtSum := sumProbs (cur.data.filter fun t => !vocab.isEog t.id)
  decide (pTxtSum < mul (mul (ofRat 3) pEogSum) (ofSize cur.size))

def infillApply (vocab : InfillVocab) (cur : Cands F) : Option (Cands F) :=
  (softmaxImpl cur true).bind fun cur =>
    let eog := cur.data.filter fun t => vocab.isEog t.id
    if eogLikely vocab cur then some { cur with data := scaleProbs (sumProbs eog) eog }
    else
      (combine vocab cur.data).map fun data =>
        let kept := data.filter fun t => vocab.isEog t.id ∨ ofRat (1 / 5) ≤ t.p
        let nNonEog := (kept.filter fun t => !vocab.isEog t.id).length
        if nNonEog = 0 then
          { cur with data := ((kept ++ data).take 1).map fun t =>
              { t with id := vocab.tokenEot, logit := ofRat 1 } }
        else
          let scaled := scaleProbs (sumProbs kept) kept
          let rest := scaled.filter fun t => vocab.isEog t.id ∨ ofRat (1 / (nNonEog + 1)) ≤ t.p
          { cur with data := scaleProbs (sumProbs rest) rest }

end

/-! The samplers that draw random numbers. -/

/-- A random generator with the distributions over it, and what seeds are taken from where none
is asked for. -/
class Random (F : outParam Type) (R : Type) (W : outParam Type) where
  /-- The generator with a seed. -/
  seeded : Nat → R
  /-- A number from 0 to 1, of double and of single width. -/
  uniform : R → F × R
  uniformFloat : R → F × R
  /-- An index, by the weights of all of them. -/
  discrete : List F → R → Nat × R
  entropy : W → Nat × W

/-- `LLAMA_DEFAULT_SEED`. -/
def defaultSeed : Nat := 0xFFFFFFFF

section
variable [Random F R W]

/-- `get_rng_seed`. -/
def getRngSeed (R : Type) [Random F R W] (seed : Nat) (w : W) : Nat × W :=
  if seed = defaultSeed then Random.entropy R w else (seed, w)

/-- `llama_sampler_dist`. -/
structure Dist (R : Type) where
  seed : Nat
  seedCur : Nat
  rng : R
  deriving DecidableEq

/-- `llama_sampler_xtc`. -/
structure Xtc (F R : Type) where
  probability : F
  threshold : F
  minKeep : Nat
  seed : Nat
  seedCur : Nat
  rng : R
  deriving DecidableEq

/-- `llama_sampler_mirostat`. -/
structure Mirostat (F R : Type) where
  nVocab : Int
  seed : Nat
  seedCur : Nat
  tau : F
  eta : F
  m : Int
  mu : F
  rng : R
  deriving DecidableEq

/-- `llama_sampler_mirostat_v2`. -/
structure MirostatV2 (F R : Type) where
  seed : Nat
  seedCur : Nat
  tau : F
  eta : F
  mu : F
  rng : R
  deriving DecidableEq

variable [Floats F] [Sorters F]

/-- `llama_sample_dist`. -/
def sampleDist (data : List (TokenData F)) (rng : R) : Nat × R :=
  Random.discrete (data.map (·.p)) rng

namespace Dist

def init (seed : Nat) (w : W) : Dist R × W :=
  let drawn := getRngSeed R seed w
  (⟨seed, drawn.1, Random.seeded drawn.1⟩, drawn.2)

def reset (ctx : Dist R) (w : W) : Dist R × W :=
  let drawn := getRngSeed R ctx.seed w
  ({ ctx with seedCur := drawn.1, rng := Random.seeded drawn.1 }, drawn.2)

/-- The first token with which the running sum reaches the target. -/
def pick (sumTgt : F) : F → Nat → List (TokenData F) → Option Nat
  | _, _, [] => none
  | sumRun, i, t :: rest =>
    if sumTgt ≤ add sumRun t.p then some i else pick sumTgt (add sumRun t.p) (i + 1) rest

def apply (ctx : Dist R) (cur : Cands F) : Dist R × Cands F :=
  match cur.data with
  | [] => (ctx, { cur with selected := -1 })
  | [t] => (ctx, { cur with data := [{ t with p := ofRat 1 }], selected := 0 })
  | data =>
    let maxL := maxLogit cur.sorted data
    let data := data.map fun t => { t with p := exp (sub t.logit maxL) }
    let sumCum := sumProbs data
    let rnd := Random.uniform ctx.rng
    let selected := (pick (mul sumCum rnd.1) (ofRat 0) 0 data).getD (data.length - 1)
    ({ ctx with rng := rnd.2 }, { cur with data := scaleProbs sumCum data, selected := selected })

def clone (ctx : Dist R) (w : W) : Dist R × W :=
  let result : Dist R × W := init ctx.seed w
  ({ result.1 with rng := ctx.rng }, result.2)

end Dist

namespace Xtc

def init (probability threshold : F) (minKeep seed : Nat) (w : W) : Xtc F R × W :=
  let drawn := getRngSeed R seed w
  (⟨probability, threshold, minKeep, seed, drawn.1, Random.seeded drawn.1⟩, drawn.2)

def reset (ctx : Xtc F R) (w : W) : Xtc F R × W :=
  let drawn := getRngSeed R ctx.seed w
  ({ ctx with seedCur := drawn.1, rng := Random.seeded drawn.1 }, drawn.2)

def apply (ctx : Xtc F R) (cur : Cands F) : Option (Xtc F R × Cands F) :=
  if ctx.probability ≤ ofRat 0 ∨ ofRat (1 / 2) < ctx.threshold ∨ cur.size < 2 then some (ctx, cur)
  else
    let chance := Random.uniformFloat ctx.rng
    let ctx := { ctx with rng := chance.2 }
    if ctx.probability < chance.1 then some (ctx, cur)
    else
      (softmaxImpl cur true).map fun cur =>
        let posLast := (cur.data.takeWhile fun t => ctx.threshold ≤ t.p).length - 1
        if ctx.minKeep ≤ cur.size - posLast ∧ 0 < posLast then
          (ctx, { cur with data := cur.data.drop posLast })
        else (ctx, cur)

def clone (ctx : Xtc F R) (w : W) : Xtc F R × W :=
  let result : Xtc F R × W := init ctx.probability ctx.threshold ctx.minKeep ctx.seed w
  ({ result.1 with rng := ctx.rng }, result.2)

end Xtc

namespace Mirostat

def init (nVocab : Int) (seed : Nat) (tau eta : F) (m : Int) (w : W) : Mirostat F R × W :=
  let drawn := getRngSeed R seed w
  (⟨nVocab, seed, drawn.1, tau, eta, m, mul (ofRat 2) tau, Random.seeded drawn.1⟩, drawn.2)

def reset (ctx : Mirostat F R) (w : W) : Mirostat F R × W :=
  let drawn := getRngSeed R ctx.seed w
  ({ ctx with mu := mul (ofRat 2) ctx.tau, seedCur := drawn.1, rng := Random.seeded drawn.1 }, drawn.2)

/-- The pairs of neighbours the estimate is over; `m - 1` is converted to an unsigned number. -/
def pairs (m : Int) (size : Nat) : Nat := if m < 1 then size - 1 else min (m - 1).toNat (size - 1)

def estimate (m : Int) (data : List (TokenData F)) : F :=
  let step := fun (s : F × F) (i : Nat) =>
    let t := log (div (ofSize (i + 2)) (ofSize (i + 1)))
    let b := log (div (probAt data i) (probAt data (i + 1)))
    (add s.1 (mul t b), add s.2 (mul t t))
  let sums := (List.range (pairs m data.length)).foldl step (ofRat 0, ofRat 0)
  div sums.1 sums.2

def apply (ctx : Mirostat F R) (cur : Cands F) : Option (Mirostat F R × Cands F) :=
  (softmaxImpl cur true).bind fun cur =>
    let sHat := estimate ctx.m cur.data
    let epsilonHat := sub sHat (ofRat 1)
    let k := pow
      (div (mul epsilonHat (pow (ofRat 2) ctx.mu))
        (sub (ofRat 1) (pow (ofRat ctx.nVocab) (neg epsilonHat))))
      (div (ofRat 1) sHat)
    (softmaxImpl (topKImpl cur (max (toInt k) 1)) true).map fun cur =>
      let idx := sampleDist cur.data ctx.rng
      let e := sub (neg (log2 (probAt cur.data idx.1))) ctx.tau
      ({ ctx with mu := sub ctx.mu (mul ctx.eta e), rng := idx.2 },
        { cur with selected := idx.1 })

/-- The state is copied from the sampler to itself; the result keeps the one it was made with. -/
def clone (ctx : Mirostat F R) (w : W) : Mirostat F R × Mirostat F R × W :=
  let result : Mirostat F R × W := init ctx.nVocab ctx.seed ctx.tau ctx.eta ctx.m w
  ({ ctx with mu := ctx.mu, rng := ctx.rng }, result)

end Mirostat

namespace MirostatV2

def init (seed : Nat) (tau eta : F) (w : W) : MirostatV2 F R × W :=
  let drawn := getRngSeed R seed w
  (⟨seed, drawn.1, tau, eta, mul (ofRat 2) tau, Random.seeded drawn.1⟩, drawn.2)

def reset (ctx : MirostatV2 F R) (w : W) : MirostatV2 F R × W :=
  let drawn := getRngSeed R ctx.seed w
  ({ ctx with mu := mul (ofRat 2) ctx.tau, seedCur := drawn.1, rng := Random.seeded drawn.1 }, drawn.2)

def apply (ctx : MirostatV2 F R) (cur : Cands F) : Option (MirostatV2 F R × Cands F) :=
  (softmaxImpl cur true).bind fun cur =>
    let kept := (cur.data.takeWhile fun t => ¬ ctx.mu < neg (log2 t.p)).length
    let cur := { cur with data := cur.data.take (if kept = 0 then 1 else kept) }
    (softmaxImpl cur true).map fun cur =>
      let idx := sampleDist cur.data ctx.rng
      let e := sub (neg (log2 (probAt cur.data idx.1))) ctx.tau
      ({ ctx with mu := sub ctx.mu (mul ctx.eta e), rng := idx.2 },
        { cur with selected := idx.1 })

def clone (ctx : MirostatV2 F R) (w : W) : MirostatV2 F R × W :=
  let result : MirostatV2 F R × W := init ctx.seed ctx.tau ctx.eta w
  ({ result.1 with mu := ctx.mu, rng := ctx.rng }, result.2)

end MirostatV2

end
end ActQuant.Sampling
