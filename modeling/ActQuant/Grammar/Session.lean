import ActQuant.Grammar.Parser

namespace ActQuant.Grammar

/-! A grammar that follows the tokens of a text. -/

/-- The bytes that continue a character, `none` where one of them cannot. -/
def decodeContinued : Nat → Nat → Text → Option (Nat × Nat × Text)
  | 0, value, pos => some (value, 0, pos)
  | nRemain + 1, value, pos =>
    if peek pos = 0 then some (value, nRemain + 1, pos)
    else if peek pos / 64 ≠ 2 then none
    else decodeContinued nRemain ((value * 64 + peek pos % 64) % 2 ^ 32) pos.tail

/-- The bytes of a character behind its first one. -/
def decodeTail : Nat → Nat → Text → Nat × Nat × Text
  | 0, value, pos => (value, 0, pos)
  | nRemain + 1, value, pos =>
    if peek pos = 0 then (value, nRemain + 1, pos)
    else decodeTail nRemain ((value * 64 + peek pos % 64) % 2 ^ 32) pos.tail

/-- The length of a sequence by the upper four bits of its first byte, 0 for a byte that cannot
be the first. -/
def sequenceLengths : List Nat := [1, 1, 1, 1, 1, 1, 1, 1, 0, 0, 0, 0, 2, 2, 3, 4]

/-- The loop of `decode_utf8` over whole sequences; a byte that cannot be the first of one drops
what was decoded. -/
def decodeSequences : Nat → List Nat → Nat → Int → Text → List Nat × PartialUtf8
  | 0, codePoints, value, nRemain, _ => (codePoints ++ [0], ⟨value, nRemain⟩)
  | fuel + 1, codePoints, value, nRemain, pos =>
    if peek pos = 0 then (codePoints ++ [0], ⟨value, nRemain⟩)
    else
      let firstByte := peek pos
      match sequenceLengths.getD (firstByte / 16) 0 with
      | 0 => ([0], ⟨0, -1⟩)
      | n + 1 =>
        let (value, nRemain, pos) := decodeTail n (firstByte &&& (2 ^ (7 - n) - 1)) pos.tail
        decodeSequences fuel (if nRemain = 0 then codePoints ++ [value] else codePoints) value
          nRemain pos

/-- `decode_utf8` of a piece behind a sequence that may be unfinished. -/
def decodePiece (src : Text) (start : PartialUtf8) : List Nat × PartialUtf8 :=
  match decodeContinued start.nRemain.toNat start.value src with
  | none => ([0], ⟨0, -1⟩)
  | some (value, nRemain, pos) =>
    let codePoints := if 0 < start.nRemain ∧ nRemain = 0 then [value] else []
    let left := if 0 < start.nRemain then (nRemain : Int) else start.nRemain
    decodeSequences src.length codePoints value left pos

/-- What a grammar reads of a vocabulary. -/
structure Vocab where
  isEog : Int → Bool
  tokenToPiece : Int → Text

/-- `llama_grammar`. A trigger pattern is the function that matches it against the whole buffer:
it returns where the text to constrain starts. -/
structure Session where
  rules : Rules
  grammarStacks : Stacks
  partialUtf8 : PartialUtf8
  isLazy : Bool
  awaitingTrigger : Bool
  triggerBuffer : Text
  triggerTokens : List Int
  triggerPatterns : List (Text → Option Nat)

namespace Session

/-- `llama_grammar_accept_str`; no stack left is an exception. -/
def acceptStr (fuel : Nat) (g : Session) (piece : Text) : Option Session :=
  let decoded := decodePiece piece g.partialUtf8
  (g.rules.acceptAll g.grammarStacks decoded.1.dropLast fuel).bind fun grammarStacks =>
    if grammarStacks = [] then none
    else some { g with grammarStacks := grammarStacks, partialUtf8 := decoded.2 }

/-- `llama_grammar_accept_impl`. -/
def acceptImpl (vocab : Vocab) (fuel : Nat) (g : Session) (token : Int) : Option Session :=
  let piece := vocab.tokenToPiece token
  if g.awaitingTrigger then
    if token ∈ g.triggerTokens then
      acceptStr fuel { g with awaitingTrigger := false, triggerBuffer := [] } piece
    else
      let buffer := g.triggerBuffer ++ piece
      match g.triggerPatterns.findSome? fun pattern => pattern buffer with
      | some start =>
        acceptStr fuel { g with awaitingTrigger := false, triggerBuffer := [] } (buffer.drop start)
      | none => some { g with triggerBuffer := buffer }
  else if vocab.isEog token then
    if g.grammarStacks.any List.isEmpty then some g else none
  else acceptStr fuel g piece

/-- The candidate a token is for the grammar, with its position among the tokens. -/
def candidate (vocab : Vocab) (g : Session) (i : Nat) (id : Int) : Candidate :=
  let decoded := decodePiece (vocab.tokenToPiece id) g.partialUtf8
  ⟨i, decoded.1, 0, decoded.2⟩

/-- The positions of the tokens whose logits `llama_grammar_apply_impl` sets to minus infinity. -/
def masked (vocab : Vocab) (fuel : Nat) (g : Session) (ids : List Int) : Option (List Nat) :=
  if g.awaitingTrigger then some []
  else
    let allowEog := g.grammarStacks.any List.isEmpty
    let numbered := (List.range ids.length).zip ids
    let direct := numbered.filter fun t =>
      if vocab.isEog t.2 then !allowEog
      else peek (vocab.tokenToPiece t.2) = 0
    let decoded := numbered.filter fun t =>
      !vocab.isEog t.2 ∧ peek (vocab.tokenToPiece t.2) ≠ 0
    (g.rules.rejectCandidates g.grammarStacks (decoded.map fun t => candidate vocab g t.1 t.2)
      fuel).map fun rejects => direct.map Prod.fst ++ rejects.map Candidate.index

end Session

/-- The well-formed rule set of some rules. -/
def Rules.ofList (rules : List (List Element)) : Option Rules :=
  if h : (∀ rule ∈ rules, RuleWF rule) ∧
      ∀ rule ∈ rules, ∀ e ∈ rule, e.type = .RULE_REF → e.value < rules.length then
    some ⟨rules, h.1, h.2⟩
  else none

/-- `llama_grammar_init_impl`; the outer `none` is an abort or the end of the fuel, the inner one
the null pointer. -/
def Session.initImpl (fuel : Nat) (grammarStr grammarRoot : Text) (isLazy : Bool)
    (triggerPatterns : List (Text → Option Nat)) (triggerTokens : List Int) :
    Option (Option Session) :=
  match readGrammar fuel grammarStr grammarRoot with
  | none => some none
  | some (rules, start) =>
    if leftRecursive rules then some none
    else
      (Rules.ofList rules).bind fun G =>
        (G.init start fuel).map fun grammarStacks =>
          some ⟨G, grammarStacks, ⟨0, 0⟩, isLazy, isLazy, [], triggerTokens, triggerPatterns⟩

end ActQuant.Grammar
