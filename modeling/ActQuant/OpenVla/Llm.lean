import ActQuant.Lib.Chars
import ActQuant.Lib.Outcome

namespace ActQuant.OpenVla
open ActQuant.Lib

section Library

/-- `llama_batch`, with `none` for a null pointer. -/
structure Batch (F : Type) where
  nTokens : Nat
  token : Option (List Int)
  embd : Option (List F)
  pos : Option (List Int)
  nSeqId : Option (List Nat)
  seqId : Option (List Int)
  logits : List Int

/-- What the tool uses of the llama library: the model, its vocabulary, the sampler, and what a
decode makes of the memory, in either attention mode. -/
structure Llama (M F : Type) where
  nEmbd : Int
  vocabNTokens : Int
  tokenize : List Char → Bool → Option (List Int)
  memoryClear : M → M
  perfContextReset : M → M
  decode : Bool → Bool → Batch F → M → Int × M
  nOutputs : M → Int
  embeddingsIth : M → Int → Option (List F)
  embeddings : M → Option (List F)
  samplerSample : M → Int

/-- The context: its memory and outputs, and the two parameters the tool sets. -/
structure LlamaContext (M : Type) where
  memory : M
  causalAttn : Bool
  warmup : Bool
  deriving DecidableEq

/-- The members of `Llm` and of its two subclasses. -/
structure Llm (F : Type) where
  tokenizer : Option (List Char → Bool → List Int)
  requireEmbeddings : Bool
  emptyToken : Int
  stopToken : Int
  padToMultipleOf : Int
  tokenEmbeddings : List F
  vocabSize : Int
  nEmbd : Int
  tokenEmbdLoaded : Bool

variable {M F : Type}

def llamaSetCausalAttn (value : Bool) : Attempt (LlamaContext M) Unit :=
  .modify fun ctx => { ctx with causalAttn := value }

variable (L : Llama M F)

/-- The calls a pass without history starts with; there is nothing to synchronise. -/
def clearMemory : Attempt (LlamaContext M) Unit :=
  .modify fun ctx =>
    { ctx with memory := L.perfContextReset (L.memoryClear ctx.memory), warmup := false }

def startPass (useHistory : Bool) : Attempt (LlamaContext M) Unit :=
  if useHistory then pure () else clearMemory L

/-- `llama_decode`, which leaves the parameters of the context as they are. -/
def llamaDecode (batch : Batch F) : Attempt (LlamaContext M) Int :=
  .act fun ctx =>
    let r := L.decode ctx.causalAttn ctx.warmup batch ctx.memory
    (r.1, { ctx with memory := r.2 })

/-- What the outputs of the last decode are read for. -/
def readMemory (f : M → α) : Attempt (LlamaContext M) α := .act fun ctx => (f ctx.memory, ctx)

end Library

section Prompt

def templateImg : List Char := "<__media__>".toList

/-- `split_text`, with the text since the last delimiter. -/
def splitTextFrom (delimiter : List Char) : Nat → List Char → List Char → List (List Char)
  | 0, _, _ => []
  | _ + 1, part, [] => if part = [] then [] else [part]
  | n + 1, part, c :: input =>
    if delimiter.isPrefixOf (c :: input) then
      let rest := splitTextFrom delimiter n [] ((c :: input).drop delimiter.length)
      if part = [] then delimiter :: rest else part :: delimiter :: rest
    else splitTextFrom delimiter n (part ++ [c]) input

def splitText (input delimiter : List Char) : List (List Char) :=
  splitTextFrom delimiter (input.length + 1) [] input

/-- The parts of the prompt; where the image comes first there is an empty text before it. -/
def promptTexts (prompt : List Char) : List (List Char) :=
  let texts := splitText ("<__media__>In: What action should the robot take to ".toList ++
    (prompt ++ "?\nOut:".toList)) templateImg
  if 1 < texts.length ∧ texts.head? = some templateImg then [] :: texts else texts

def toLower (prompt : List Char) : List Char := prompt.map Char.toLower

variable {M F : Type} (L : Llama M F) (llm : Llm F)

/-- The tokens of a text, by the tokenizer or else by the vocabulary, which aborts on an error. -/
def encodeText (text : List Char) (addSpecial : Bool) : Attempt (LlamaContext M) (List Int) :=
  match llm.tokenizer with
  | some encode => pure (encode text addSpecial)
  | none => .demand ((L.tokenize text addSpecial).map fun promptTokens =>
      if promptTokens.head? = some 797 then promptTokens.set 0 512 else promptTokens)

def addEmptyToken (isLast : Bool) (promptTokens : List Int) : List Int :=
  if isLast = true ∧ promptTokens ≠ [] ∧ promptTokens.getLast? ≠ some llm.emptyToken then
    promptTokens ++ [llm.emptyToken]
  else promptTokens

end Prompt

section Generate
variable {M F : Type} (L : Llama M F) (llm : Llm F)

/-- `eval_chunk`; the flag of the last token is written even where there is none. -/
def evalChunk (tokens : Option (List Int)) (embd : Option (List F)) (nTokens : Nat)
    (isLast : Bool) : Attempt (LlamaContext M) Unit := do
  .demand (if isLast = true ∧ nTokens = 0 then none else some ())
  let ret ← llamaDecode L ⟨nTokens, tokens, embd, none, none, none, List.replicate nTokens 1⟩
  .check (ret = 0)

/-- `get_hidden_state_at`. -/
def hiddenStateAt (tokenIndex : Int) (memory : M) : Option (List F) :=
  let currentSeqLen := L.nOutputs memory
  if tokenIndex < 0 ∨ currentSeqLen ≤ tokenIndex then none
  else
    match L.embeddingsIth memory tokenIndex with
    | some emb => some emb
    | none => if tokenIndex = currentSeqLen - 1 then L.embeddings memory else none

/-- The hidden state of the last output, where embeddings are required. -/
def pushHiddenState (allHiddenStates : List (List F)) : Attempt (LlamaContext M) (List (List F)) :=
  if llm.requireEmbeddings then do
    let hs ← readMemory fun memory => hiddenStateAt L (L.nOutputs memory - 1) memory
    match hs with
    | none => .fail
    | some hs => pure (allHiddenStates ++ [hs])
  else pure allHiddenStates

def numNewTokens : Nat := 1

/-- One turn of the loop that generates. -/
def generateStep (r : List Int × List (List F)) (_ : Nat) :
    Attempt (LlamaContext M) (List Int × List (List F)) := do
  let newTokenId ← readMemory L.samplerSample
  evalChunk L (some [newTokenId]) none 1 true
  let allHiddenStates ← pushHiddenState L llm r.2
  pure (r.1 ++ [newTokenId], allHiddenStates)

/-- One part of the prompt in the prefill. -/
def prefillText (imgEmb : List F) (nImgTokens nTexts : Nat) (text : List Char × Nat) :
    Attempt (LlamaContext M) Unit := do
  let isLast := text.2 == nTexts - 1
  if text.1 = templateImg then evalChunk L none (some imgEmb) nImgTokens isLast
  else
    let promptTokens ← encodeText L llm text.1 (text.2 == 0)
    let promptTokens := addEmptyToken llm isLast promptTokens
    evalChunk L (some promptTokens) none promptTokens.length isLast

/-- The reverse mapping of the last two tokens, where there are two. -/
def reverseMapping (generatedTokens : List Int) : List Int :=
  if 2 ≤ generatedTokens.length then
    let vocabSize := L.vocabNTokens - llm.padToMultipleOf
    (generatedTokens.drop (generatedTokens.length - 2)).map fun t => max (vocabSize - t - 1) 0
  else generatedTokens

/-- `OpenvlaLlm::generate`: the tokens it leaves, and the output. -/
def generate (prompt : List Char) (imgEmb : List F) (nImgTokens : Nat) (output : List F)
    (useHistory : Bool) : Attempt (LlamaContext M) (List Int × List F) := do
  startPass L useHistory
  let texts := promptTexts prompt
  texts.zipIdx.foldlM (fun _ text => prefillText L llm imgEmb nImgTokens texts.length text) ()
  let allHiddenStates ← pushHiddenState L llm []
  let r ← (List.range numNewTokens).foldlM (generateStep L llm) ([], allHiddenStates)
  if llm.requireEmbeddings then pure (r.1, r.2.flatten)
  else pure (reverseMapping L llm r.1, output)

end Generate

section Oft
variable {M F : Type} [Zero F] (L : Llama M F) (llm : Llm F)

/-- What `forward_oft` collects: at each position a token, or a place in the embeddings. -/
structure OftInput (F : Type) where
  allTokens : List Int
  allEmbeddings : List F
  isEmbedding : List Bool

def collectText (imgEmb : List F) (nImgTokens nTexts : Nat) (input : OftInput F)
    (text : List Char × Nat) : Attempt (LlamaContext M) (OftInput F) := do
  if text.1 = templateImg then
    pure ⟨input.allTokens ++ List.replicate nImgTokens 0,
      input.allEmbeddings ++ imgEmb.take (nImgTokens * L.nEmbd.toNat),
      input.isEmbedding ++ List.replicate nImgTokens true⟩
  else
    let promptTokens ← encodeText L llm text.1 (text.2 == 0)
    let promptTokens := addEmptyToken llm (text.2 == nTexts - 1) promptTokens
    pure ⟨input.allTokens ++ promptTokens, input.allEmbeddings,
      input.isEmbedding ++ List.replicate promptTokens.length false⟩

/-- The loop over the segments of one kind, and the hidden states of the action tokens; every
segment takes at least one position. -/
def decodeSegments (input : OftInput F) (actionTokensStartPos : Nat) :
    Nat → Nat → Nat → Option (List F) → Attempt (LlamaContext M) (Option (List F))
  | 0, _, _, hidden => pure hidden
  | fuel + 1, pos, embOffset, hidden =>
    match input.isEmbedding[pos]? with
    | none => pure hidden
    | some segIsEmb => do
      let segLen := ((input.isEmbedding.drop pos).takeWhile (· == segIsEmb)).length
      let isActionSegment := segIsEmb && pos == actionTokensStartPos
      let logits := List.replicate segLen 1
      let n := segLen * L.nEmbd.toNat
      let ret ← llamaDecode L <|
        if segIsEmb then
          ⟨segLen, none, some ((input.allEmbeddings.drop embOffset).take n), none, none, none,
            logits⟩
        else
          ⟨segLen, some ((input.allTokens.drop pos).take segLen), none, none, none, none, logits⟩
      .check (ret = 0)
      let embOffset := if segIsEmb then embOffset + n else embOffset
      if isActionSegment && llm.requireEmbeddings then
        let emb ← readMemory fun memory => (List.range segLen).mapM fun (i : Nat) =>
          L.embeddingsIth memory i
        match emb with
        | none => .fail
        | some emb =>
          decodeSegments input actionTokensStartPos fuel (pos + segLen) embOffset
            (some emb.flatten)
      else decodeSegments input actionTokensStartPos fuel (pos + segLen) embOffset hidden

/-- `forward_oft`. -/
def forwardOft (prompt : List Char) (imgEmb : List F) (nImgTokens numActionTokens : Nat)
    (output : List F) (useHistory : Bool) : Attempt (LlamaContext M) (List F) := do
  startPass L useHistory
  let texts := promptTexts (toLower prompt)
  let input ← texts.zipIdx.foldlM (collectText L llm imgEmb nImgTokens texts.length) ⟨[], [], []⟩
  let actionTokensStartPos := input.allTokens.length
  let input : OftInput F :=
    ⟨input.allTokens ++ List.replicate numActionTokens 0 ++ [llm.stopToken],
      input.allEmbeddings ++ List.replicate (numActionTokens * L.nEmbd.toNat) 0,
      input.isEmbedding ++ List.replicate numActionTokens true ++ [false]⟩
  let hidden ← decodeSegments L llm input actionTokensStartPos input.allTokens.length 0 0 none
  if llm.requireEmbeddings then
    match hidden with
    | none => .fail
    | some hidden => pure hidden
  else pure output

/-- `tokens_to_embeddings`. -/
def tokensToEmbeddings (tokens : List Int) : Option (List F) :=
  if llm.tokenEmbdLoaded = false then none
  else
    (tokens.mapM fun tokenId =>
      if tokenId < 0 ∨ llm.vocabSize ≤ tokenId then none
      else some ((llm.tokenEmbeddings.drop (tokenId * llm.nEmbd).toNat).take llm.nEmbd.toNat)).map
        List.flatten

/-- The exit of `forward_oft_v2` at a failure: causal attention is restored first. -/
def orRestore (o : Option α) : Attempt (LlamaContext M) α :=
  match o with
  | some a => pure a
  | none => do
    llamaSetCausalAttn true
    .fail

def appendText (imgEmb : List F) (nImgTokens : Nat) (proprioEmb : Option (List F)) (nTexts : Nat)
    (acc : List F × Nat) (text : List Char × Nat) : Attempt (LlamaContext M) (List F × Nat) := do
  if text.1 = templateImg then
    let acc := (acc.1 ++ imgEmb.take (nImgTokens * llm.nEmbd.toNat), acc.2 + nImgTokens)
    match proprioEmb with
    | some proprioEmb => pure (acc.1 ++ proprioEmb.take llm.nEmbd.toNat, acc.2 + 1)
    | none => pure acc
  else if text.1 = [] then pure acc
  else
    let promptTokens ← encodeText L llm text.1 false
    let promptTokens := addEmptyToken llm (text.2 == nTexts - 1) promptTokens
    let textEmbeddings ← orRestore (tokensToEmbeddings llm promptTokens)
    pure (acc.1 ++ textEmbeddings, acc.2 + promptTokens.length)

def bosToken : Int := 1

/-- `forward_oft_v2`, from where attention is not causal and the dimensions agree. -/
def forwardNonCausal (prompt : List Char) (imgEmb : List F) (nImgTokens : Nat)
    (proprioEmb : Option (List F)) (numActionTokens : Nat) (output : List F) :
    Attempt (LlamaContext M) (List F) := do
  let texts := promptTexts (toLower prompt)
  let bosEmbedding ← orRestore (tokensToEmbeddings llm [bosToken])
  let acc ← texts.zipIdx.foldlM (appendText L llm imgEmb nImgTokens proprioEmb texts.length)
    (bosEmbedding, 1)
  let actionTokensStartPos := acc.2
  let stopEmbedding ← orRestore (tokensToEmbeddings llm [llm.stopToken])
  let allEmbeddings :=
    acc.1 ++ List.replicate (numActionTokens * llm.nEmbd.toNat) 0 ++ stopEmbedding
  let totalTokens := actionTokensStartPos + numActionTokens + 1
  let extractionStart := actionTokensStartPos - 1
  let logitsFlags := (List.range totalTokens).map fun i =>
    if extractionStart ≤ i ∧ i < extractionStart + numActionTokens then 1 else 0
  let positions := (List.range totalTokens).map fun (i : Nat) => (i : Int)
  let ret ← llamaDecode L ⟨totalTokens, none, some allEmbeddings, some positions,
    some (List.replicate totalTokens 1), some (List.replicate totalTokens 0), logitsFlags⟩
  orRestore (if ret ≠ 0 then none else some ())
  if llm.requireEmbeddings then
    let emb ← readMemory fun memory => (List.range numActionTokens).mapM fun i =>
      L.embeddingsIth memory (extractionStart + i : Nat)
    let emb ← orRestore emb
    llamaSetCausalAttn true
    pure emb.flatten
  else
    llamaSetCausalAttn true
    pure output

/-- `forward_oft_v2`. -/
def forwardOftV2 (prompt : List Char) (imgEmb : List F) (nImgTokens : Nat)
    (proprioEmb : Option (List F)) (numActionTokens : Nat) (output : List F) :
    Attempt (LlamaContext M) (List F) :=
  if llm.tokenEmbdLoaded = false then .fail
  else do
    clearMemory L
    llamaSetCausalAttn false
    -- This exit alone leaves attention as it is.
    .check (L.nEmbd = llm.nEmbd)
    forwardNonCausal L llm prompt imgEmb nImgTokens proprioEmb numActionTokens output

end Oft

section Causal
variable {M F : Type} {L : Llama M F} {llm : Llm F}

/-- Attention is causal. -/
def Causal (ctx : LlamaContext M) : Prop := ctx.causalAttn = true

theorem triple_llamaDecode (batch : Batch F) :
    Triple Causal (llamaDecode L batch) (fun _ => Causal) Causal :=
  triple_act fun _ h => h

theorem triple_readMemory (f : M → α) : Triple Causal (readMemory f) (fun _ => Causal) Causal :=
  triple_act fun _ h => h

theorem triple_encodeText (P E : LlamaContext M → Prop) (text : List Char) (addSpecial : Bool) :
    Triple P (encodeText L llm text addSpecial) (fun _ => P) E := by
  rw [encodeText]
  cases llm.tokenizer with
  | some encode => exact triple_pure fun _ h => h
  | none => exact triple_demand fun _ _ h _ => h

theorem triple_startPass (useHistory : Bool) (E : LlamaContext M → Prop) :
    Triple Causal (startPass L useHistory) (fun _ => Causal) E :=
  triple_ite (fun _ => triple_pure fun _ h => h) fun _ => triple_modify fun _ h => h

theorem triple_collectText (imgEmb : List F) (nImgTokens nTexts : Nat) (input : OftInput F)
    (text : List Char × Nat) :
    Triple Causal (collectText L llm imgEmb nImgTokens nTexts input text) (fun _ => Causal)
      Causal := by
  rw [collectText]
  refine triple_ite (fun _ => triple_pure fun _ h => h) fun _ => ?_
  refine triple_bind (triple_encodeText _ _ _ _) fun promptTokens => ?_
  exact triple_pure fun _ h => h

theorem triple_decodeSegments (input : OftInput F) (start fuel : Nat) :
    ∀ pos embOffset hidden, Triple Causal
      (decodeSegments L llm input start fuel pos embOffset hidden) (fun _ => Causal) Causal := by
  induction fuel with
  | zero => exact fun _ _ _ => triple_pure fun _ h => h
  | succ fuel ih =>
    intro pos embOffset hidden
    rw [decodeSegments]
    cases input.isEmbedding[pos]? with
    | none => exact triple_pure fun _ h => h
    | some segIsEmb =>
      refine triple_bind (triple_llamaDecode _) fun ret => ?_
      refine triple_bind (Q := fun _ => Causal) (triple_check (fun _ h _ => h) fun _ h _ => h)
        fun _ => ?_
      refine triple_ite (fun _ => ?_) fun _ => ih _ _ _
      refine triple_bind (triple_readMemory _) fun emb => ?_
      cases emb with
      | none => exact triple_fail fun _ h => h
      | some emb => exact ih _ _ _

/-- Whatever the attention mode, the exit restores causal attention. -/
theorem triple_orRestore (o : Option α) :
    Triple (fun _ => True) (orRestore o : Attempt (LlamaContext M) α) (fun _ _ => True) Causal := by
  cases o with
  | some a => exact triple_pure fun _ h => h
  | none =>
    refine triple_bind (Q := fun _ => Causal) (triple_modify fun _ _ => rfl) fun _ => ?_
    exact triple_fail fun _ h => h

theorem triple_appendText (imgEmb : List F) (nImgTokens : Nat) (proprioEmb : Option (List F))
    (nTexts : Nat) (acc : List F × Nat) (text : List Char × Nat) :
    Triple (fun _ => True) (appendText L llm imgEmb nImgTokens proprioEmb nTexts acc text)
      (fun _ _ => True) Causal := by
  rw [appendText]
  refine triple_ite (fun _ => ?_) fun _ => triple_ite (fun _ => triple_pure fun _ h => h)
    fun _ => ?_
  · cases proprioEmb with
    | none => exact triple_pure fun _ h => h
    | some proprioEmb => exact triple_pure fun _ h => h
  · refine triple_bind (triple_encodeText _ _ _ _) fun promptTokens => ?_
    refine triple_bind (triple_orRestore _) fun textEmbeddings => ?_
    exact triple_pure fun _ h => h

variable [Zero F]

theorem triple_forwardOft (prompt : List Char) (imgEmb : List F)
    (nImgTokens numActionTokens : Nat) (output : List F) (useHistory : Bool) :
    Triple Causal (forwardOft L llm prompt imgEmb nImgTokens numActionTokens output useHistory)
      (fun _ => Causal) Causal := by
  rw [forwardOft]
  refine triple_bind (triple_startPass _ _) fun _ => ?_
  refine triple_bind (triple_foldlM (I := fun _ _ => Causal)
    (fun text _ input => triple_collectText imgEmb nImgTokens _ input text) _) fun input => ?_
  refine triple_bind (triple_decodeSegments _ _ _ _ _ _) fun hidden => ?_
  refine triple_ite (fun _ => ?_) fun _ => triple_pure fun _ h => h
  cases hidden with
  | none => exact triple_fail fun _ h => h
  | some hidden => exact triple_pure fun _ h => h

/-- Every exit of the non-causal pass restores causal attention. -/
theorem triple_forwardNonCausal (prompt : List Char) (imgEmb : List F) (nImgTokens : Nat)
    (proprioEmb : Option (List F)) (numActionTokens : Nat) (output : List F) :
    Triple (fun _ => True)
      (forwardNonCausal L llm prompt imgEmb nImgTokens proprioEmb numActionTokens output)
      (fun _ => Causal) Causal := by
  have hrestore : Triple (fun _ => True) (llamaSetCausalAttn true : Attempt (LlamaContext M) Unit)
      (fun _ => Causal) Causal := triple_modify fun _ _ => rfl
  rw [forwardNonCausal]
  refine triple_bind (triple_orRestore _) fun bosEmbedding => ?_
  refine triple_bind (triple_foldlM (I := fun _ _ _ => True)
    (fun text _ acc => triple_appendText imgEmb nImgTokens proprioEmb _ acc text) _) fun acc => ?_
  refine triple_bind (triple_orRestore _) fun stopEmbedding => ?_
  refine triple_bind (Q := fun _ _ => True) (triple_act fun _ h => h) fun ret => ?_
  refine triple_bind (triple_orRestore _) fun _ => ?_
  refine triple_ite (fun _ => ?_) fun _ => ?_
  · refine triple_bind (Q := fun _ _ => True) (triple_act fun _ h => h) fun emb => ?_
    refine triple_bind (triple_orRestore _) fun emb => ?_
    exact triple_bind hrestore fun _ => triple_pure fun _ h => h
  · exact triple_bind hrestore fun _ => triple_pure fun _ h => h

theorem triple_forwardOftV2 (prompt : List Char) (imgEmb : List F) (nImgTokens : Nat)
    (proprioEmb : Option (List F)) (numActionTokens : Nat) (output : List F)
    (h : llm.tokenEmbdLoaded = true → L.nEmbd = llm.nEmbd) :
    Triple Causal
      (forwardOftV2 L llm prompt imgEmb nImgTokens proprioEmb numActionTokens output)
      (fun _ => Causal) Causal := by
  rw [forwardOftV2]
  refine triple_ite (fun _ => triple_fail fun _ h => h) fun hloaded => ?_
  refine triple_bind (Q := fun _ _ => True) (triple_modify fun _ _ => trivial) fun _ => ?_
  refine triple_bind (Q := fun _ _ => True) (triple_modify fun _ _ => trivial) fun _ => ?_
  refine triple_bind (Q := fun _ _ => True) (triple_check (fun _ _ _ => trivial) ?_) fun _ =>
    triple_forwardNonCausal _ _ _ _ _ _
  exact fun _ _ hne => absurd (h (Bool.eq_true_of_not_eq_false hloaded)) hne

/-- The exit at embeddings of another dimension leaves attention non-causal. -/
theorem forwardOftV2_of_ne (prompt : List Char) (imgEmb : List F) (nImgTokens : Nat)
    (proprioEmb : Option (List F)) (numActionTokens : Nat) (output : List F)
    (hloaded : llm.tokenEmbdLoaded = true) (hne : L.nEmbd ≠ llm.nEmbd) (ctx : LlamaContext M) :
    forwardOftV2 L llm prompt imgEmb nImgTokens proprioEmb numActionTokens output ctx =
      some (none, ⟨L.perfContextReset (L.memoryClear ctx.memory), false, false⟩) := by
  have hcheck : (Attempt.check (L.nEmbd = llm.nEmbd) : Attempt (LlamaContext M) Unit) = .fail :=
    if_neg hne
  rw [forwardOftV2, if_neg (Bool.not_eq_false _ ▸ hloaded), hcheck]
  rfl

/-- Both forward passes leave attention causal at every exit, but for the exit of the second one
at token embeddings of another dimension than the model's. -/
theorem forward_causal_iff (hcausal : ctx.causalAttn = true) (prompt : List Char)
    (imgEmb : List F) (nImgTokens : Nat) (proprioEmb : Option (List F)) (numActionTokens : Nat)
    (output : List F) (useHistory : Bool) :
    (∀ r ctx', forwardOft L llm prompt imgEmb nImgTokens numActionTokens output useHistory ctx =
        some (r, ctx') → ctx'.causalAttn = true) ∧
      ∀ r ctx', forwardOftV2 L llm prompt imgEmb nImgTokens proprioEmb numActionTokens output ctx =
        some (r, ctx') →
          (ctx'.causalAttn = true ↔ (llm.tokenEmbdLoaded = true → L.nEmbd = llm.nEmbd)) := by
  have hexit {r : Option (List F)} {ctx' : LlamaContext M}
      (h : r.elim (Causal ctx') fun _ => Causal ctx') : ctx'.causalAttn = true := by
    cases r with
    | none => exact h
    | some r => exact h
  refine ⟨fun r ctx' h => ?_, fun r ctx' h => ?_⟩
  · exact hexit (triple_forwardOft _ _ _ _ _ _ ctx r ctx' hcausal h)
  · by_cases hdim : llm.tokenEmbdLoaded = true → L.nEmbd = llm.nEmbd
    · have hexits := triple_forwardOftV2 prompt imgEmb nImgTokens proprioEmb numActionTokens output
        hdim ctx r ctx' hcausal h
      exact iff_of_true (hexit hexits) hdim
    · obtain ⟨hloaded, hne⟩ := Classical.not_imp.1 hdim
      rw [forwardOftV2_of_ne _ _ _ _ _ _ hloaded hne] at h
      cases h
      exact iff_of_false Bool.false_ne_true hdim

end Causal

section Runs

/-- A library of a model with two dimensions, whose decodes succeed. -/
def toyLlama (decode : Int) : Llama Unit Int where
  nEmbd := 2
  vocabNTokens := 10
  tokenize := fun _ _ => some [3]
  memoryClear := id
  perfContextReset := id
  decode := fun _ _ _ memory => (decode, memory)
  nOutputs := fun _ => 1
  embeddingsIth := fun _ _ => some [5, 6]
  embeddings := fun _ => none
  samplerSample := fun _ => 4

/-- A table of embeddings with the given dimension. -/
def toyLlm (nEmbd : Int) : Llm Int where
  tokenizer := none
  requireEmbeddings := true
  emptyToken := 4
  stopToken := 2
  padToMultipleOf := 64
  tokenEmbeddings := List.replicate 10 7
  vocabSize := 5
  nEmbd := nEmbd
  tokenEmbdLoaded := true

/-- A decode that fails in the second pass. -/
theorem forward_causal_iff_toy :
    ∃ ctx', forwardOftV2 (toyLlama 1) (toyLlm 2) [] [1, 2] 1 none 1 [] ⟨(), true, true⟩ =
      some (none, ctx') ∧ ctx'.causalAttn = true := by
  have hrun : forwardOftV2 (toyLlama 1) (toyLlm 2) [] [1, 2] 1 none 1 [] ⟨(), true, true⟩ =
      some (none, ⟨(), true, false⟩) := by decide +kernel
  refine ⟨_, hrun, ?_⟩
  exact ((forward_causal_iff rfl [] [1, 2] 1 none 1 [] true).2 none _ hrun).2 fun _ => rfl

/-- A table of dimension three at the model of dimension two. -/
theorem forwardOftV2_not_causal :
    ∃ ctx', forwardOftV2 (toyLlama 0) (toyLlm 3) [] [1, 2] 1 none 1 [] ⟨(), true, true⟩ =
      some (none, ctx') ∧ ctx'.causalAttn = false :=
  ⟨_, forwardOftV2_of_ne [] [1, 2] 1 none 1 [] rfl (by decide) _, rfl⟩

end Runs

end ActQuant.OpenVla
