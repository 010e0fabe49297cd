import Mathlib.Data.Finset.Max

namespace ActQuant.Batch

def LLAMA_MAX_SEQ : Nat := 256

/-- The entries of the vectors `pos`, `seq_id` and `output` for one token. -/
structure Token where
  pos : Int
  seqId : List Nat
  output : Bool
deriving DecidableEq

/-- `llama_ubatch`, without the token ids and embeddings, which only the graph reads. -/
structure Ubatch where
  equalSeqs : Bool
  nSeqs : Nat
  tokens : List Token
deriving DecidableEq

namespace Ubatch

def nTokens (u : Ubatch) : Nat := u.tokens.length

def nSeqTokens (u : Ubatch) : Nat := u.nTokens / u.nSeqs

/-- `seq_id_unq`: the sequences of the tokens, in increasing order. -/
def seqIdUnq (u : Ubatch) : List Nat :=
  (List.range LLAMA_MAX_SEQ).filter fun s => u.tokens.any fun x => x.seqId.contains s

theorem seqIdUnq_nodup (u : Ubatch) : u.seqIdUnq.Nodup := List.nodup_range.filter _

end Ubatch

/-- The entries of the arrays of `llama_batch` for one token. -/
structure Entry where
  token : Int
  pos : Int
  seqId : List Int
  logits : Bool

/-- `llama_batch`: the arrays that are not given are not read. -/
structure LlamaBatch where
  entries : List Entry
  hasToken : Bool
  hasPos : Bool
  hasSeqId : Bool
  hasLogits : Bool

/-- What `init` asks the memory. -/
structure Memory where
  seqPosMin : Nat → Int
  seqPosMax : Nat → Int

def Token.seqSet (x : Token) : Finset Nat := x.seqId.toFinset

/-- The positions of a sequence, in batch order. -/
def posOf (xs : List Token) (s : Nat) : List Int :=
  (xs.filter fun x => x.seqId.contains s).map Token.pos

/-- `seq_pos`. -/
def seqPos (xs : List Token) (s : Nat) : Finset Int := (posOf xs s).toFinset

def seqPosMin (xs : List Token) (s : Nat) : Int := (seqPos xs s).min.untopD (-1)

def seqPosMax (xs : List Token) (s : Nat) : Int := (seqPos xs s).max.unbotD (-1)

/-- `seq_cpl`: a token has the second sequence first and the first one behind it. -/
def seqCpl (xs : List Token) (s₁ s₀ : Nat) : Bool :=
  xs.any fun x => x.seqId.head? == some s₀ && x.seqId.tail.contains s₁

def hasCpl (xs : List Token) : Bool := xs.any fun x => 1 < x.seqId.length

/-- The generated positions. A token without a sequence has no first one to read, and the greatest
position has no next. -/
def genPos (p₀ : Nat → Int) : List (List Nat) → Option (List Int)
  | [] => some []
  | ss :: rest =>
    ss.head?.bind fun s =>
      if p₀ s < 2147483647 then
        (genPos (fun q => if q ∈ ss then p₀ s + 1 else p₀ q) rest).map (p₀ s :: ·)
      else none

namespace LlamaBatch

def validTokens (batch : LlamaBatch) (nVocab : Nat) : Bool :=
  !batch.hasToken || batch.entries.all fun e => 0 ≤ e.token && e.token < nVocab

def validSeqIds (batch : LlamaBatch) (nSeqMax : Nat) : Bool :=
  !batch.hasSeqId || batch.entries.all fun e => e.seqId.all fun s => 0 ≤ s && s < nSeqMax

def seqIds (batch : LlamaBatch) : List (List Nat) :=
  batch.entries.map fun e => if batch.hasSeqId then e.seqId.map Int.toNat else [0]

/-- The first positions that are free in the memory. -/
def firstPos (mem : Option Memory) (s : Nat) : Int := mem.elim 0 fun m => m.seqPosMax s + 1

def positions (batch : LlamaBatch) (mem : Option Memory) : Option (List Int) :=
  if batch.hasPos then some (batch.entries.map Entry.pos)
  else genPos (firstPos mem) batch.seqIds

/-- Without `logits` only the last token is an output, or all are. -/
def outputs (batch : LlamaBatch) (outputAll : Bool) : List Bool :=
  if outputAll then batch.entries.map fun _ => true
  else if batch.hasLogits then batch.entries.map Entry.logits
  else (List.range batch.entries.length).map fun i => i + 1 == batch.entries.length

/-- The batch with its missing arrays generated. The first sequence of each token is read. -/
def fill (batch : LlamaBatch) (mem : Option Memory) (outputAll : Bool) : Option (List Token) :=
  if batch.seqIds.all fun ss => !ss.isEmpty then
    (batch.positions mem).map fun ps =>
      List.zipWith (fun x o => ⟨x.1, x.2, o⟩) (ps.zip batch.seqIds) (batch.outputs outputAll)
  else none

end LlamaBatch

/-- The positions of a sequence are without a gap and go on from the memory; embeddings may repeat
the last position. -/
def consistent (xs : List Token) (hasToken : Bool) (mem : Option Memory) (s : Nat) : Bool :=
  seqPos xs s = ∅ ||
    ((mem.all fun m => m.seqPosMax s < 0 ||
      (if hasToken then seqPosMin xs s == m.seqPosMax s + 1
      else seqPosMin xs s == m.seqPosMax s || seqPosMin xs s == m.seqPosMax s + 1)) &&
    seqPosMax xs s - seqPosMin xs s + 1 ≤ (seqPos xs s).card)

/-- Coupled sequences have the same positions in the memory. -/
def coupled (xs : List Token) (nSeqMax : Nat) (m : Memory) : Bool :=
  (List.range nSeqMax).all fun s₀ => (List.range nSeqMax).all fun s₁ =>
    !seqCpl xs s₀ s₁ ||
      (m.seqPosMin s₀ == m.seqPosMin s₁ && m.seqPosMax s₀ == m.seqPosMax s₁)

/-- One token of the last check: `cur_seq_set` is cut down, `cur_seq_pos` stays at its -1. -/
def checkToken (cur : Nat → Finset Nat) (x : Token) : Option (Nat → Finset Nat) :=
  x.seqId.foldlM (fun cur s =>
    if cur s ∩ x.seqSet = ∅ then none
    else if x.pos < -1 then none
    else some (Function.update cur s (cur s ∩ x.seqSet))) cur

/-- The checks of `init` on the filled batch. -/
def accepts (xs : List Token) (hasToken : Bool) (mem : Option Memory) (nSeqMax : Nat) : Bool :=
  ((List.range nSeqMax).all (consistent xs hasToken mem)) && mem.all (coupled xs nSeqMax) &&
    (xs.foldlM checkToken fun _ => Finset.range LLAMA_MAX_SEQ).isSome

/-- `llama_batch_allocr` after `init`. -/
structure Allocr where
  tokens : List Token
  nSeqMax : Nat
deriving DecidableEq

/-- `init`: no result where it returns false. -/
def init (batch : LlamaBatch) (nVocab nSeqMax : Nat) (mem : Option Memory) (outputAll : Bool) :
    Option Allocr :=
  if batch.entries ≠ [] ∧ nSeqMax ≤ LLAMA_MAX_SEQ ∧ batch.validTokens nVocab ∧
      batch.validSeqIds nSeqMax then
    (batch.fill mem outputAll).bind fun xs =>
      if accepts xs batch.hasToken mem nSeqMax then some ⟨xs, nSeqMax⟩ else none
  else none

/-- The calls of `llama_batch_allocr` that split the batch. -/
inductive Split where
  | simple
  | equal (sequential : Bool)
  | seq
deriving DecidableEq

/-- What the splitting keeps between the calls: `used`, `n_used` and `out_ids`. -/
structure Splitter where
  used : Finset Nat
  nUsed : Nat
  outIds : List Nat
deriving DecidableEq

def splitReset : Splitter := ⟨∅, 0, []⟩

namespace Allocr

def nTokens (b : Allocr) : Nat := b.tokens.length

def token (b : Allocr) (i : Nat) : Token := b.tokens.getD i ⟨0, [], false⟩

def seqSet (b : Allocr) (i : Nat) : Finset Nat := (b.token i).seqSet

/-- `seq_set_map`. -/
def seqSetMap (b : Allocr) (c : Finset Nat) : List Nat :=
  (List.range b.nTokens).filter fun i => b.seqSet i = c

/-- The search for the first unused token. -/
def firstUnused (b : Allocr) (used : Finset Nat) : Option Nat :=
  (List.range b.nTokens).find? fun i => i ∉ used

/-- The loop of `split_simple` with so many tokens from `cur_idx` on. -/
def simpleLoop (n : Nat) : Nat → Nat → List Nat → List Nat
  | 0, _, idxs => idxs
  | left + 1, cur, idxs =>
    if n ≤ (idxs ++ [cur]).length then idxs ++ [cur]
    else simpleLoop n left (cur + 1) (idxs ++ [cur])

def splitSimple (b : Allocr) (n : Nat) (used : Finset Nat) : List Nat :=
  (b.firstUnused used).elim [] fun cur => simpleLoop n (b.nTokens - cur) cur []

/-- The first loop of `split_equal`: the sequence sets that take part. The loop ends after there is
one more of them than `n_ubatch`. -/
def setsLoop (b : Allocr) (n : Nat) (sequential : Bool) (used : Finset Nat) :
    List Nat → List (Finset Nat) → Int → List (Finset Nat)
  | [], sets, _ => sets
  | i :: rest, sets, last =>
    if i ∉ used ∧ (∀ c ∈ sets, c ∩ b.seqSet i = ∅) ∧
        (sequential → sets = [] ∨ ((b.token i).seqId.headD 0 : Int) = last + 1) then
      if n < (sets ++ [b.seqSet i]).length then sets ++ [b.seqSet i]
      else setsLoop b n sequential used rest (sets ++ [b.seqSet i]) ((b.token i).seqId.headD 0)
    else setsLoop b n sequential used rest sets last

def curSeqSets (b : Allocr) (n : Nat) (sequential : Bool) (used : Finset Nat) :
    List (Finset Nat) :=
  setsLoop b n sequential used (List.range b.nTokens) [] (-1)

/-- The second loop: for each set the tokens taken and, from `cur_idx` on, those that follow. -/
def expandLoop (n : Nat) : Nat → List (List Nat × List Nat) → List (List Nat × List Nat)
  | 0, groups => groups
  | fuel + 1, groups =>
    if ∀ g ∈ groups, g.2 ≠ [] then
      let groups := groups.map fun g => (g.1 ++ g.2.take 1, g.2.drop 1)
      if n < ((groups.head?.elim 0 fun g => g.1.length) + 1) * groups.length then groups
      else expandLoop n fuel groups
    else groups

/-- `idxs_per_seq`. -/
def idxsPerSeq (b : Allocr) (n : Nat) (sequential : Bool) (used : Finset Nat) :
    List (List Nat) :=
  (expandLoop n b.nTokens ((b.curSeqSets n sequential used).map fun c =>
    ([], (b.seqSetMap c).dropWhile (· ∈ used)))).map Prod.fst

/-- The loop of `split_seq` behind a token with this set: a token whose set is not within it is
passed over. -/
def seqLoop (b : Allocr) (n : Nat) (used : Finset Nat) :
    List Nat → Finset Nat → List Nat → List Nat
  | [], _, idxs => idxs
  | i :: rest, cur, idxs =>
    if i ∈ used ∨ ¬ b.seqSet i ⊆ cur then seqLoop b n used rest cur idxs
    else if n ≤ (idxs ++ [i]).length then idxs ++ [i]
    else seqLoop b n used rest (b.seqSet i) (idxs ++ [i])

def splitSeq (b : Allocr) (n : Nat) (used : Finset Nat) : List Nat :=
  (b.firstUnused used).elim [] fun cur =>
    if n ≤ 1 then [cur]
    else seqLoop b n used (List.range' (cur + 1) (b.nTokens - (cur + 1))) (b.seqSet cur) [cur]

/-- The tokens of the next ubatch, set by set; none where the call gives up or all are used. -/
def idxs (b : Allocr) (n : Nat) (used : Finset Nat) : Split → List Nat
  | .simple => b.splitSimple n used
  | .equal sequential =>
    if sequential && hasCpl b.tokens then [] else (b.idxsPerSeq n sequential used).flatten
  | .seq => b.splitSeq n used

/-- `n_seqs` of the next ubatch. -/
def nSeqs (b : Allocr) (n : Nat) (used : Finset Nat) : Split → Nat
  | .simple => (b.splitSimple n used).length
  | .equal sequential => (b.curSeqSets n sequential used).length
  | .seq => 1

/-- `ubatch_add`. -/
def ubatchAdd (b : Allocr) (idxs : List Nat) (nSeqs : Nat) (equalSeqs : Bool) : Ubatch :=
  ⟨equalSeqs, nSeqs, idxs.map b.token⟩

/-- One call of the splitting, with the indices it passes to `ubatch_add`. -/
structure Call where
  idxs : List Nat
  ubatch : Ubatch
deriving DecidableEq

/-- One call; no result for the empty ubatch. -/
def split (b : Allocr) (kind : Split) (n : Nat) (st : Splitter) : Option (Call × Splitter) :=
  let idxs := b.idxs n st.used kind
  if idxs = [] then none
  else some (⟨idxs, b.ubatchAdd idxs (b.nSeqs n st.used kind) (kind ≠ .simple)⟩,
    ⟨st.used ∪ idxs.toFinset, st.nUsed + idxs.length,
      st.outIds ++ idxs.filter fun i => (b.token i).output⟩)

/-- Call after call until the ubatch is empty; no result where the calls go on. -/
def splitAll (b : Allocr) (kind : Split) (n : Nat) :
    Nat → Splitter → Option (List Call × Splitter)
  | 0, _ => none
  | fuel + 1, st =>
    match b.split kind n st with
    | none => some ([], st)
    | some (call, st) => (splitAll b kind n fuel st).map fun r => (call :: r.1, r.2)

end Allocr
end ActQuant.Batch
